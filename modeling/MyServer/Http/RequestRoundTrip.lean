import MyServer.Http.RequestKept
import MyServer.Http.ResponseRoundTrip

/-!
# A request that is written and read again

What the proxy sends upstream: `buildHTTPRequestHeader` on what the parser has stored, and the parser on
that again.
-/

open MyServer.HeaderLines
open MyServer.ResponseHeader (HTTP_RESPONSE_OTHER_DIM Listed)

namespace MyServer.RequestHeader

/-- As the writer has it, the fields in the order of the hash map's iterator. -/
def HttpRequestHeader.written (request : HttpRequestHeader) (keys : List Str) : HeaderText.HttpRequestHeader where
  cmd := request.cmd
  uri := request.uri
  uriOpts := request.uriOpts
  ver := request.ver
  auth := request.auth
  contentLength := request.contentLength
  rangeType := request.rangeType
  rangeByteBegin := BitVec.ofInt 64 request.range.rangeByteBegin
  rangeByteEnd := BitVec.ofInt 64 request.range.rangeByteEnd
  other := keys.map fun n => ⟨n, (request.other n).getD []⟩

def HttpRequestHeader.text (request : HttpRequestHeader) (keys : List Str) : Str :=
  HeaderText.text (HeaderText.requestPieces (request.written keys))

structure SameRequest (a b : HttpRequestHeader) : Prop where
  cmd : a.cmd = b.cmd
  uri : a.uri = b.uri
  uriOpts : a.uriOpts = b.uriOpts
  ver : a.ver = b.ver
  range : a.range = b.range
  contentLength : a.contentLength = b.contentLength
  other : a.other = b.other

/-- The header is written, and what is written is taken and says the same, whatever is in the buffers. -/
def RoundTrips (request : HttpRequestHeader) (keys : List Str) : Prop :=
  ∀ buffer rest inputSize connection,
    let output := HeaderText.buildHTTPRequestHeader buffer (request.written keys)
    HeaderText.Rendered output ∧ (output.text.length ≤ inputSize →
      ∃ n result connection', buildHTTPRequestHeaderStruct (output.text ++ rest) inputSize .free connection =
        .ok n result connection' ∧ SameRequest result request)

/-- Short enough for the buffer and for the scan, to which nothing looks like the end of the header before
that comes. -/
structure WithinLimits (text : Str) : Prop where
  length : text.length < HeaderText.MAX
  short : Short 0 text
  lines : text.count LF ≤ 27
  inside : ∀ j < text.length - 3, text.getD j 0 = LF → text.getD (j + 2) 0 ≠ LF

/-! ## The text -/

/-- The pieces behind the request line. -/
def fieldPieces (request : HeaderText.HttpRequestHeader) : List HeaderText.Piece :=
  HeaderText.field "Authorization: " request.auth ++ HeaderText.field "Content-length: " request.contentLength ++
    request.range ++
    request.other.flatMap (fun e => [.copy e.name, .copy (ascii ": "), .copy e.value, .copy crlf]) ++ [.copy crlf]

theorem cstr_literals : cstr (ascii " ") = [ch ' '] ∧ cstr (ascii "?") = [ch '?'] ∧ cstr crlf = [ch '\r', LF] ∧
    cstr (ascii ": ") = [ch ':', ch ' '] := by decide

theorem cstr_crlf : cstr crlf = crlf := by decide

section

variable {request : HttpRequestHeader} {keys : List Str}

theorem text_first (hkept : Kept request) : request.text keys =
    request.cmd ++ ch ' ' :: (request.uri ++ ch ' ' ::
      ((if request.uriOpts = [] then [] else ch '?' :: (cstr request.uriOpts ++ [ch ' '])) ++
        (request.ver ++ ch '\r' :: LF :: HeaderText.text (fieldPieces (request.written keys))))) := by
  obtain ⟨hspace, hquestion, hcrlf, -⟩ := cstr_literals
  have hcmd := cstr_of_notMem fun hmem => (hkept.cmd 0 hmem).1 rfl
  have huri := cstr_of_notMem hkept.uri_one.line.2
  have hver := cstr_of_notMem hkept.ver_one.line.2
  have hsplit : HeaderText.requestPieces (request.written keys) =
      [HeaderText.Piece.copy request.cmd, .copy (ascii " "), .copy request.uri, .copy (ascii " ")] ++
        (if request.uriOpts = [] then []
          else [HeaderText.Piece.copy (ascii "?"), .copy request.uriOpts, .copy (ascii " ")]) ++
        [HeaderText.Piece.copy request.ver, .copy crlf] ++ fieldPieces (request.written keys) := by
    simp only [HeaderText.requestPieces, fieldPieces, List.append_assoc]
    rfl
  unfold HttpRequestHeader.text
  rw [hsplit, HeaderText.text_pieces_append, HeaderText.text_pieces_append, HeaderText.text_pieces_append]
  by_cases hopts : request.uriOpts = []
  · simp [hopts, HeaderText.text, HeaderText.Piece.text, hcmd, huri, hver, hspace, hcrlf]
  · simp [hopts, HeaderText.text, HeaderText.Piece.text, hcmd, huri, hver, hspace, hquestion, hcrlf]

/-- A line of a field as it is written. -/
def fieldOf (name value : Str) (hzero : (0 : Byte) ∉ name) (hcolon : ch ':' ∉ name)
    (hfirst : name.head? ≠ some (ch '\r')) (hvalue : IsValue value) : Field :=
  ⟨name, value, hzero, hcolon, hfirst, hvalue.one, hvalue.trimmed⟩

theorem exists_entries {value : Str → Str} (hnodup : keys.Nodup)
    (hgood : ∀ n ∈ keys, IsKey n ∧ IsValue (value n) ∧ (value n).length ≤ HTTP_RESPONSE_OTHER_DIM) :
    ∃ fields : List Field, fields.map Field.key = keys ∧ (∀ field ∈ fields, field.Plain) ∧
      (∀ field ∈ fields, field.value.length ≤ HTTP_RESPONSE_OTHER_DIM) ∧
      fieldLines fields = HeaderText.text (keys.flatMap fun n =>
        [.copy n, .copy (ascii ": "), .copy (value n), .copy crlf]) ∧
      ∀ request : HttpRequestHeader, fields.foldl HttpRequestHeader.line request =
        { request with other := fun n => if n ∈ keys then some (value n) else request.other n } := by
  induction keys with
  | nil => exact ⟨[], rfl, nofun, nofun, rfl, fun request => by simp⟩
  | cons key keys ih =>
    obtain ⟨⟨hkey, hvalue, hlong⟩, hgood⟩ := List.forall_mem_cons.mp hgood
    obtain ⟨hnotMem, hnodup⟩ := List.nodup_cons.mp hnodup
    obtain ⟨fields, hkeys, hplain, hlongs, htext, hfold⟩ := ih hnodup hgood
    let field := fieldOf key (value key) hkey.zero hkey.colon hkey.first hvalue
    have hlength : field.isLength = false := hkey.contentLength
    refine ⟨field :: fields, ?_, ?_, ?_, ?_, fun request => ?_⟩
    · rw [List.map_cons, hkeys]
      exact congrArg (· :: keys) hkey.lower
    · exact List.forall_mem_cons.mpr ⟨⟨hkey.length, hkey.authorization, hkey.range, fun h =>
        absurd (hlength.symm.trans h) Bool.false_ne_true⟩, hplain⟩
    · exact List.forall_mem_cons.mpr ⟨hlong, hlongs⟩
    · obtain ⟨-, -, -, hcolon⟩ := cstr_literals
      have hname := cstr_of_notMem hkey.zero
      have hcstr := cstr_of_notMem hvalue.one.line.2
      rw [List.flatMap_cons, HeaderText.text_pieces_append, ← htext]
      simp [fieldLines, field, fieldOf, Field.line, HeaderText.text, HeaderText.Piece.text, hname, hcstr, hcolon,
        cstr_crlf]
    · have hstored : field.key = key := hkey.lower
      rw [List.foldl_cons, hfold]
      simp only [HttpRequestHeader.line, hlength, Bool.false_eq_true, if_false, hstored]
      congr 1
      funext n
      by_cases hn : n = key
      · subst hn
        simp [hnotMem, field, fieldOf]
      · simp [hn]

/-- Without credentials and without a range, the fields come back. -/
theorem exists_fields (hkept : Kept request) (hlisted : Listed keys request.other) (hauth : request.auth = [])
    (hrange : request.rangeType = []) :
    ∃ fields : List Field, (fields.map Field.key).Nodup ∧ (∀ field ∈ fields, field.Plain) ∧
      (∀ field ∈ fields, field.value.length ≤ HTTP_RESPONSE_OTHER_DIM) ∧
      HeaderText.text (fieldPieces (request.written keys)) = fieldLines fields ++ crlf ∧
      ∀ start : HttpRequestHeader, start.contentLength = [] → (∀ n, start.other n = none) →
        fields.foldl HttpRequestHeader.line start =
          { start with contentLength := request.contentLength, other := request.other } := by
  have hgetD : ∀ {n v}, request.other n = some v → (request.other n).getD [] = v := by
    rintro n v hv
    rw [hv]
    rfl
  have hgood : ∀ n ∈ keys, IsKey n ∧ IsValue ((request.other n).getD []) ∧
      ((request.other n).getD []).length ≤ HTTP_RESPONSE_OTHER_DIM := by
    intro n hn
    obtain ⟨v, hv⟩ := Option.ne_none_iff_exists'.mp ((hlisted.mem n).mp hn)
    rw [hgetD hv]
    exact hkept.other n v hv
  have hother : (fun n => if n ∈ keys then some ((request.other n).getD []) else none) = request.other := by
    funext n
    have hmem := hlisted.mem n
    cases hn : request.other n with
    | none => exact if_neg fun hin => hmem.mp hin hn
    | some v => exact if_pos (hmem.mpr (by rw [hn]; exact nofun))
  obtain ⟨entries, hkeys, hplain, hlong, htext, hfold⟩ := exists_entries hlisted.nodup hgood
  have hpieces : HeaderText.text (fieldPieces (request.written keys)) =
      HeaderText.text (HeaderText.field "Content-length: " request.contentLength) ++ fieldLines entries ++ crlf := by
    rw [htext]
    unfold fieldPieces
    simp [HttpRequestHeader.written, hauth, hrange, HeaderText.field, HeaderText.HttpRequestHeader.range,
      List.flatMap_map, HeaderText.text, HeaderText.Piece.text, cstr_crlf]
  by_cases hlength : request.contentLength = []
  · refine ⟨entries, by rw [hkeys]; exact hlisted.nodup, hplain, hlong, ?_, fun start hstart hnone => ?_⟩
    · rw [hpieces, hlength]
      simp [HeaderText.field, HeaderText.text]
    · rw [hfold]
      simp only [hnone, hother, hlength, hstart]
  · have hname : (0 : Byte) ∉ ascii "Content-length" ∧ ch ':' ∉ ascii "Content-length" ∧
        (ascii "Content-length").head? ≠ some (ch '\r') := by decide
    let field := fieldOf (ascii "Content-length") request.contentLength hname.1 hname.2.1 hname.2.2 hkept.length
    have hkey : field.key = ascii "content-length" := by
      change (ascii "Content-length").map toLower = _
      decide
    have his : field.isLength = true := by
      change caseEq (ascii "Content-length") (ascii "Content-length") = true
      decide
    have hdim : HTTP_REQUEST_CONTENT_LENGTH_DIM = 12 ∧ HTTP_RESPONSE_OTHER_DIM = 4096 := ⟨rfl, rfl⟩
    have hshort : field.value.length < 12 := hkept.length_length
    refine ⟨field :: entries, ?_, ?_, ?_, ?_, fun start _ hnone => ?_⟩
    · rw [List.map_cons, hkeys, hkey]
      refine List.nodup_cons.mpr ⟨fun hmem => ?_, hlisted.nodup⟩
      have hno := (hgood _ hmem).1.contentLength
      exact absurd hno (by decide)
    · refine List.forall_mem_cons.mpr ⟨⟨?_, ?_, ?_, fun _ => hshort⟩, hplain⟩
      · change (ascii "Content-length").length ≤ 95
        decide
      · change caseEq (ascii "Content-length") _ = false
        decide
      · change caseEq (ascii "Content-length") _ = false
        decide
    · exact List.forall_mem_cons.mpr ⟨by omega, hlong⟩
    · have hzero := cstr_of_notMem hkept.length.one.line.2
      have hfront : cstr (ascii "Content-length: ") = ascii "Content-length" ++ [ch ':', ch ' '] := by decide
      rw [hpieces]
      simp [HeaderText.field, hlength, HeaderText.text, HeaderText.Piece.text, fieldLines, Field.line, field, fieldOf,
        hfront, hzero, cstr_crlf]
    · rw [List.foldl_cons, hfold]
      simp only [HttpRequestHeader.line, his, if_true, hnone, hother]
      rfl

end

/-! ## The request line again -/

/-- Where a space ends the URI, no query is found. -/
theorem firstLine_space {input uri more : Str} {tokenOff : Nat} {line : FirstLine}
    (huri : ∀ b ∈ uri, b ≠ ch '?' ∧ b ≠ ch ' ') (h : firstLine input (uri ++ ch ' ' :: more) tokenOff = some line) :
    line.uriOpts = [] := by
  unfold firstLine at h
  generalize seekSpace input (uri ++ ch ' ' :: more) HTTP_REQUEST_VER_DIM tokenOff = max at h
  dsimp only at h
  have hsub := @takeWhile_take_sublist (fun c => decide (c ≠ ch '?' ∧ c ≠ ch ' ')) (ch ' ') (by decide) uri more
    (min max.toNat HTTP_REQUEST_URI_DIM)
  set front := ((uri ++ ch ' ' :: more).take (min max.toNat HTTP_REQUEST_URI_DIM)).takeWhile
    fun c => decide (c ≠ ch '?' ∧ c ≠ ch ' ') with hfront
  have hno : ¬ (front.length < min max.toNat HTTP_REQUEST_URI_DIM ∧
      (uri ++ ch ' ' :: more)[front.length]? = some (ch '?')) := by
    rintro ⟨-, hquestion⟩
    rcases Nat.lt_or_ge front.length uri.length with hlt | hge
    · rw [List.getElem?_append_left hlt, List.getElem?_eq_getElem hlt] at hquestion
      exact (huri _ (List.getElem_mem hlt)).1 (Option.some.inj hquestion)
    · have hplace : front.length = uri.length := le_antisymm hsub.length_le hge
      rw [hplace, List.getElem?_append_right le_rfl, Nat.sub_self] at hquestion
      exact absurd (Option.some.inj hquestion) (by decide)
  rw [if_neg hno] at h
  split_ifs at h
  obtain rfl := Option.some.inj h
  rfl

theorem firstLine_query (input more : Str) (tokenOff : Nat) :
    firstLine input (ch '?' :: more) tokenOff = none := by
  unfold firstLine
  generalize seekSpace input (ch '?' :: more) HTTP_REQUEST_VER_DIM tokenOff = max
  dsimp only
  apply if_pos
  cases min max.toNat HTTP_REQUEST_URI_DIM with
  | zero => rfl
  | succ n => rfl

section

variable {request : HttpRequestHeader} {keys : List Str}

theorem Kept.method (hkept : Kept request) (body : Str) :
    getCharInString (ascii ": ,\t\n\r") (request.cmd ++ ch ' ' :: body) HTTP_REQUEST_CMD_DIM =
      some request.cmd.length :=
  getCharInString_append hkept.cmd ⟨by decide, by decide⟩ hkept.cmd_length

theorem behindName_space (name body : Str) :
    behindName (name ++ ch ' ' :: body) name.length = body.dropWhile (· = ch ' ') := by
  have hcolon : ¬ some (ch ' ') = some (ch ':') := by decide
  unfold behindName
  rw [List.drop_left]
  dsimp only
  rw [List.head?_cons, if_neg hcolon]
  exact List.dropWhile_cons_of_pos (by decide)

theorem dropWhile_space {a b : Str} (ha : a.head? ≠ some (ch ' ')) (hb : b.head? ≠ some (ch ' ')) :
    (a ++ b).dropWhile (· = ch ' ') = a ++ b := by
  cases a with
  | nil =>
    cases b with
    | nil => rfl
    | cons c b => exact List.dropWhile_cons_of_neg (by simpa using hb)
  | cons c a => exact List.dropWhile_cons_of_neg (by simpa using ha)

/-- A query is not found again, and without a URI what follows is taken for one. -/
theorem plain_of_accepted (hkept : Kept request) {rest : Str} {result : HttpRequestHeader}
    (haccepted : Accepted (request.text keys ++ rest) result) (hsame : SameRequest result request) :
    request.uriOpts = [] ∧ request.uri ≠ [] := by
  obtain ⟨tokenOff, lineOff, line, hmethod, hends, hparts, -, -, huriOpts, hver⟩ := haccepted
  rw [text_first hkept, List.append_assoc, List.cons_append, hkept.method] at hmethod
  obtain rfl := Option.some.inj hmethod
  have hline := parts_kept hends hparts
  rw [text_first hkept, List.append_assoc, List.cons_append, behindName_space] at hends hparts
  by_cases huri : request.uri = []
  · exfalso
    rw [huri, List.nil_append, List.cons_append, List.dropWhile_cons_of_pos (by decide)] at hends hparts
    by_cases hopts : request.uriOpts = []
    · have hstop : (ch '\r' :: LF :: (HeaderText.text (fieldPieces (request.written keys)) ++ rest)).head? ≠
          some (ch ' ') := by
        rw [List.head?_cons]
        decide
      rw [if_pos hopts, List.nil_append, List.append_assoc, List.cons_append, List.cons_append,
        dropWhile_space hkept.ver_first hstop,
        getEndLine_line hkept.ver_one (lt_trans hkept.ver_length (by decide))] at hends
      obtain rfl := Option.some.inj hends
      have hapart := hline.apart
      rw [← hver, hsame.ver] at hapart
      exact lt_irrefl _ hapart
    · rw [if_neg hopts, List.append_assoc, List.cons_append, List.dropWhile_cons_of_neg (by decide),
        firstLine_query] at hparts
      exact absurd hparts nofun
  · refine ⟨?_, huri⟩
    obtain ⟨c, uri, hcons⟩ := List.exists_cons_of_ne_nil huri
    have hc := (hkept.uri_seps c (by rw [hcons]; exact List.mem_cons_self)).2
    have hdrop : ∀ more, (request.uri ++ more).dropWhile (fun b => decide (b = ch ' ')) = request.uri ++ more := by
      intro more
      rw [hcons]
      exact List.dropWhile_cons_of_neg (by simpa using hc)
    rw [List.append_assoc, hdrop, List.cons_append] at hparts
    rw [← hsame.uriOpts, huriOpts, firstLine_space hkept.uri_seps hparts]
    rfl

end

/-! ## There and back -/

theorem Short.length_le {k : Nat} {line rest : Str} (h : Short k (line ++ rest)) (hline : LF ∉ line)
    (hne : line ≠ []) : k + line.length ≤ 2048 := by
  induction line generalizing k with
  | nil => exact absurd rfl hne
  | cons c line ih =>
    have hc : c ≠ LF := fun heq => hline (heq ▸ List.mem_cons_self)
    rw [List.cons_append, Short, if_neg hc] at h
    obtain ⟨-, hlt, hrest⟩ := h
    rw [List.length_cons]
    by_cases hnil : line = []
    · rw [hnil]
      exact hlt
    · have := ih hrest (fun hmem => hline (List.mem_cons_of_mem c hmem)) hnil
      omega

theorem exists_front (first : Str) (fields : List Field) :
    ∃ front, first ++ crlf ++ fieldLines fields ++ crlf = front ++ [LF] ++ crlf := by
  induction fields using List.reverseRecOn with
  | nil => exact ⟨first ++ [ch '\r'], by simp [fieldLines, crlf, LF]⟩
  | append_singleton fields field _ =>
    refine ⟨first ++ crlf ++ fieldLines fields ++ field.line ++ [ch '\r'], ?_⟩
    simp [fieldLines, crlf, LF]

section

variable {request : HttpRequestHeader} {keys : List Str}

/-- The text of a request without a query, in the shape that the parser takes apart. -/
theorem text_plain (hkept : Kept request) (hopts : request.uriOpts = []) {fields : List Field}
    (hfields : HeaderText.text (fieldPieces (request.written keys)) = fieldLines fields ++ crlf) :
    request.text keys = request.cmd ++ ch ' ' ::
      (request.uri ++ ch ' ' :: request.ver ++ ch '\r' :: LF :: (fieldLines fields ++ crlf)) := by
  rw [text_first hkept, if_pos hopts, hfields]
  simp

theorem valid_request (hkept : Kept request) (hopts : request.uriOpts = []) {fields : List Field}
    (hfields : HeaderText.text (fieldPieces (request.written keys)) = fieldLines fields ++ crlf)
    (hlimits : WithinLimits (request.text keys)) (rest : Str) {inputSize : Nat}
    (hsize : (request.text keys).length ≤ inputSize) :
    validHTTPRequest (memory (request.text keys ++ rest) fun _ => 0) inputSize =
      .valid (request.text keys).length := by
  obtain ⟨front, hfront⟩ :=
    exists_front (request.cmd ++ ch ' ' :: (request.uri ++ ch ' ' :: request.ver)) fields
  have hmax : HeaderText.MAX = 2 ^ 13 := rfl
  have hlength := hlimits.length
  have htext : request.text keys = front ++ [LF] ++ crlf := by
    rw [← hfront, text_plain hkept hopts hfields]
    simp [crlf, LF]
  exact valid_text htext hlimits.short hlimits.lines hlimits.inside (by omega) hsize

/-- The URI has no slash at its end. -/
theorem Accepted.trimmed {input : Str} (h : Accepted input request) :
    trimRight request.uri (ascii " /") = request.uri := by
  rw [h.uri]
  exact List.rdropWhile_idempotent _ _

/-- What the request line leaves to the fields. -/
def HttpRequestHeader.withoutFields (request : HttpRequestHeader) : HttpRequestHeader :=
  { HttpRequestHeader.free with
    cmd := request.cmd
    uri := request.uri
    ver := request.ver
    uriEndsWithSlash := request.uri.getLast? = some (ch '/') }

theorem first_written {input : Str} (haccepted : Accepted input request) :
    HttpRequestHeader.first { HttpRequestHeader.free with cmd := request.cmd } ⟨request.uri, [], request.ver⟩ =
      request.withoutFields := by
  have hver : (if request.ver = [] then [] else request.ver) = request.ver := by
    split_ifs with hnil
    · exact hnil.symm
    · rfl
  simp only [HttpRequestHeader.first, HttpRequestHeader.withoutFields, haccepted.trimmed]
  congr 1

/-- The scan has taken the first line, so it is no longer than a line may be. -/
theorem WithinLimits.first_length (hkept : Kept request) {more : Str}
    (h : WithinLimits (request.cmd ++ ch ' ' :: (request.uri ++ ch ' ' :: request.ver ++ ch '\r' :: LF :: more))) :
    request.uri.length + 1 + request.ver.length ≤ 2048 := by
  have hcmd : LF ∉ request.cmd := fun hmem => (hkept.cmd _ hmem).2 (by decide)
  have hline : LF ∉ request.uri ++ ch ' ' :: request.ver :=
    (hkept.uri_one.append (.cons (by decide) hkept.ver_one)).line.1
  have hshape : request.cmd ++ ch ' ' :: (request.uri ++ ch ' ' :: request.ver ++ ch '\r' :: LF :: more) =
      (request.cmd ++ ch ' ' :: (request.uri ++ ch ' ' :: request.ver)) ++ ch '\r' :: LF :: more := by simp
  have hshort := h.short
  rw [hshape] at hshort
  have hle := hshort.length_le (by
    intro hmem
    rcases List.mem_append.mp hmem with hmem | hmem
    · exact hcmd hmem
    · exact hline ((List.mem_cons.mp hmem).resolve_left (by decide))) (by simp)
  simp only [List.length_append, List.length_cons] at hle
  omega

theorem build_written {input : Str} (haccepted : Accepted input request) (hkept : Kept request)
    (hopts : request.uriOpts = []) (huri : request.uri ≠ []) (hlimits : WithinLimits (request.text keys))
    {fields : List Field}
    (hfields : HeaderText.text (fieldPieces (request.written keys)) = fieldLines fields ++ crlf)
    (rest : Str) {inputSize : Nat} (hsize : (request.text keys).length ≤ inputSize) (connection : Connection) :
    buildHTTPRequestHeaderStruct (request.text keys ++ rest) inputSize .free connection =
      resume (request.text keys ++ rest) (request.text keys).length (request.text keys ++ rest).length
        (fieldLines fields ++ (crlf ++ rest)) request.withoutFields connection := by
  have hvalid := valid_request hkept hopts hfields hlimits rest hsize
  have hshape := text_plain hkept hopts hfields
  have hdims : HTTP_REQUEST_URI_DIM = 4096 ∧ HTTP_REQUEST_VER_DIM = 10 := ⟨rfl, rfl⟩
  rw [hshape] at hlimits
  have hshort := hlimits.first_length hkept
  have hlength : (request.uri ++ ch ' ' :: request.ver).length = request.uri.length + 1 + request.ver.length := by
    rw [List.length_append, List.length_cons]
    omega
  have hfirst : (request.uri ++ ch ' ' :: request.ver).head? ≠ some (ch ' ') := by
    obtain ⟨c, uri, hcons⟩ := List.exists_cons_of_ne_nil huri
    have hc := (hkept.uri_seps c (by rw [hcons]; exact List.mem_cons_self)).2
    simpa [hcons] using hc
  have hinput : request.text keys ++ rest = request.cmd ++ ch ' ' ::
      (request.uri ++ ch ' ' :: request.ver ++ ch '\r' :: LF :: (fieldLines fields ++ (crlf ++ rest))) := by
    rw [hshape]
    simp
  have hparts := @firstLine_plain (request.text keys ++ rest) (request.cmd ++ [ch ' '])
    (LF :: (fieldLines fields ++ (crlf ++ rest))) request.uri request.ver (by rw [hinput]; simp) hkept.uri_seps huri
    (by omega) hkept.ver_one hkept.ver_first hkept.ver_length
  rw [build_line .free connection hkept.cmd hkept.cmd_length
    (hkept.uri_one.append (.cons (by decide) hkept.ver_one)) hfirst (by omega) hinput hvalid
    (by rw [hlength, List.append_assoc]; exact hparts), first_written haccepted]

theorem parse_written {input : Str} (haccepted : Accepted input request) (hkept : Kept request)
    (hlisted : Listed keys request.other) (hauth : request.auth = []) (hrange : request.rangeType = [])
    (hopts : request.uriOpts = []) (huri : request.uri ≠ []) (hlimits : WithinLimits (request.text keys))
    (rest : Str) {inputSize : Nat} (hsize : (request.text keys).length ≤ inputSize) (connection : Connection) :
    ∃ n result connection', buildHTTPRequestHeaderStruct (request.text keys ++ rest) inputSize .free connection =
      .ok n result connection' ∧ SameRequest result request := by
  obtain ⟨fields, hnodup, hplain, hlong, hfields, hfold⟩ := exists_fields hkept hlisted hauth hrange
  have hshape := text_plain hkept hopts hfields
  have hinput : request.text keys ++ rest =
      request.cmd ++ ch ' ' :: (request.uri ++ ch ' ' :: request.ver) ++ crlf ++
        (fieldLines fields ++ (crlf ++ rest)) := by
    rw [hshape]
    simp [crlf, LF]
  have hmax : (request.cmd ++ ch ' ' :: (request.uri ++ ch ' ' :: request.ver) ++ crlf ++
      fieldLines fields).length ≤ (request.text keys).length := by
    rw [hshape]
    simp [crlf, LF]
  refine ⟨(request.text keys).length, fields.foldl HttpRequestHeader.line request.withoutFields, connection, ?_, ?_⟩
  · rw [build_written haccepted hkept hopts huri hlimits hfields rest hsize connection,
      resume_lines hplain hlong hinput hmax hnodup fun _ _ => rfl]
  · rw [hfold _ rfl fun _ => rfl]
    exact ⟨rfl, rfl, hopts.symm, rfl, (hkept.range hrange).symm, rfl, rfl⟩

theorem sent_text (hlength : (request.text keys).length < HeaderText.MAX) (buffer : Nat → Byte) :
    (HeaderText.buildHTTPRequestHeader buffer (request.written keys)).text = request.text keys :=
  HeaderText.written _ buffer hlength

theorem RoundTrips.plain (h : RoundTrips request keys) (hkept : Kept request)
    (hlength : (request.text keys).length < HeaderText.MAX) : request.uriOpts = [] ∧ request.uri ≠ [] := by
  have htext := @sent_text request keys hlength fun _ => 0
  obtain ⟨-, htaken⟩ := h (fun _ => 0) [] (request.text keys).length ⟨[], []⟩
  rw [htext] at htaken
  obtain ⟨n, result, connection', hbuild, hsame⟩ := htaken le_rfl
  obtain ⟨haccepted, -⟩ := accepted_of_build hbuild
  exact plain_of_accepted hkept haccepted hsame

end

/-- A path, and nothing of what is written otherwise than it is read. -/
structure Carried (request : HttpRequestHeader) (keys : List Str) : Prop where
  uri : request.uri ≠ []
  uriOpts : request.uriOpts = []
  auth : request.auth = []
  rangeType : request.rangeType = []
  limits : WithinLimits (request.text keys)

theorem size_le_length (pieces : List HeaderText.Piece) (hcopies : ∀ piece ∈ pieces, ∃ src, piece = .copy src) :
    HeaderText.size pieces ≤ (HeaderText.text pieces).length := by
  induction pieces with
  | nil => exact le_rfl
  | cons piece pieces ih =>
    obtain ⟨⟨src, rfl⟩, hrest⟩ := List.forall_mem_cons.mp hcopies
    have hle := ih hrest
    have hmod : (cstr src).length % 2 ^ 32 ≤ (cstr src).length := Nat.mod_le _ _
    change (cstr src).length % 2 ^ 32 + HeaderText.size pieces ≤ (cstr src ++ HeaderText.text pieces).length
    rw [List.length_append]
    omega

theorem rendered_of_carried {request : HttpRequestHeader} {keys : List Str} (h : Carried request keys)
    (buffer : Nat → Byte) : HeaderText.Rendered (HeaderText.buildHTTPRequestHeader buffer (request.written keys)) := by
  rw [HeaderText.requestRendered_iff]
  refine ⟨lt_of_le_of_lt (size_le_length _ fun piece hpiece => ?_) h.limits.length, fun hne => absurd h.rangeType hne⟩
  refine (HeaderText.request_copies _ piece hpiece).resolve_left fun hrange => ?_
  have hnil : (request.written keys).range = [] := if_pos h.rangeType
  rw [hnil] at hrange
  exact List.not_mem_nil hrange

/-- **When what is sent upstream is the request that came in.** With a query, or with no path, it never is,
and a bound is not written within its buffer when it is negative. -/
theorem roundTrips_when {input : Str} {inputSize n : Nat} {request : HttpRequestHeader} {keys : List Str}
    {connection connection' : Connection}
    (h : buildHTTPRequestHeaderStruct input inputSize .free connection = .ok n request connection')
    (hlisted : Listed keys request.other) :
    (Carried request keys → RoundTrips request keys) ∧
      (RoundTrips request keys →
        ((request.text keys).length < HeaderText.MAX → request.uriOpts = [] ∧ request.uri ≠ []) ∧
        (request.rangeType ≠ [] → 0 ≤ (BitVec.ofInt 64 request.range.rangeByteBegin).toInt ∧
          0 ≤ (BitVec.ofInt 64 request.range.rangeByteEnd).toInt)) := by
  obtain ⟨haccepted, hkept⟩ := accepted_of_build h
  refine ⟨fun hcarried buffer rest size conn => ?_, fun htrips => ⟨htrips.plain hkept, ?_⟩⟩
  · have htext := @sent_text request keys hcarried.limits.length buffer
    dsimp only
    rw [htext]
    exact ⟨rendered_of_carried hcarried buffer, fun hsize => parse_written haccepted hkept hlisted hcarried.auth
      hcarried.rangeType hcarried.uriOpts hcarried.uri hcarried.limits rest hsize conn⟩
  · obtain ⟨hrendered, -⟩ := htrips (fun _ => 0) [] 0 ⟨[], []⟩
    exact ((HeaderText.requestRendered_iff _ _).mp hrendered).2

/-! ## Two requests -/

def pathLine : RequestLine where
  method := ascii "GET"
  uri := ascii "/resource"
  query := none
  ver := ascii "HTTP/1.1"
  method_ne := resourceLine.method_ne
  method_one := resourceLine.method_one
  method_seps := resourceLine.method_seps
  method_length := resourceLine.method_length
  uri_ne := by decide
  uri_one := by decide
  uri_seps := by decide
  query_one := nofun
  query_space := nofun
  ver_ne := resourceLine.ver_ne
  ver_one := resourceLine.ver_one
  ver_space := resourceLine.ver_space
  ver_length := resourceLine.ver_length

def pathRequest : HttpRequestHeader :=
  [hostField.toField].foldl HttpRequestHeader.line (HttpRequestHeader.free.requested pathLine)

theorem path_limits : Limits (requestHeader pathLine [hostField]) 8192 where
  lines := ⟨by decide, by decide, by decide⟩
  length := by decide
  size := by decide

theorem host_listed (first : RequestLine) : Listed [ascii "host"]
    ([hostField.toField].foldl HttpRequestHeader.line (HttpRequestHeader.free.requested first)).other where
  nodup := List.nodup_singleton _
  mem n := by
    have hkey : hostField.toField.key = ascii "host" := by decide
    have hlength : hostField.toField.isLength = false := by decide
    rw [List.mem_singleton]
    simp only [List.foldl_cons, List.foldl_nil, HttpRequestHeader.line, hlength, Bool.false_eq_true, if_false, hkey]
    split_ifs with hn
    · exact iff_of_true hn nofun
    · exact iff_of_false hn fun h => h rfl

theorem path_carried : Carried pathRequest [ascii "host"] where
  uri := by decide
  uriOpts := rfl
  auth := rfl
  rangeType := rfl
  limits := by
    have htext : pathRequest.text [ascii "host"] = ascii "GET /resource HTTP/1.1" ++ crlf ++
        ([ascii "host: localhost"].flatMap (· ++ crlf) ++ crlf) := by decide +kernel
    have hfield : Short 1 ([ascii "host: localhost"].flatMap (· ++ crlf) ++ crlf) :=
      short_lines (by decide) (by decide)
    rw [htext]
    exact ⟨by decide, short_line (by decide) (by decide) hfield, by decide, by decide⟩

theorem path_sent : RoundTrips pathRequest [ascii "host"] :=
  (roundTrips_when (build_fold [0] ⟨[], []⟩ (by decide) path_limits) (host_listed pathLine)).1 path_carried

theorem not_sent : ¬ ∀ (input : Str) (inputSize n : Nat) (request : HttpRequestHeader) (keys : List Str)
    (connection connection' : Connection),
    buildHTTPRequestHeaderStruct input inputSize .free connection = .ok n request connection' →
      Listed keys request.other → RoundTrips request keys := by
  intro h
  have hlimits : Limits (requestHeader resourceLine [hostField]) 8192 :=
    ⟨⟨by decide, by decide, by decide⟩, by decide, by decide⟩
  have hbuild := build_fold [0] ⟨[], []⟩ (by decide) hlimits
  obtain ⟨-, hkept⟩ := accepted_of_build hbuild
  have hplain := (h _ _ _ _ _ _ _ hbuild (host_listed resourceLine)).plain hkept (by decide +kernel)
  exact absurd hplain.1 (by decide)

end MyServer.RequestHeader
