import MyServer.Http.HeaderWritten
import MyServer.Http.ResponseLines

/-!
# A response that is written and read again

What the parser has stored is written with a line for each field, so it comes back: the writer adds the
line of the ranges, and leaves the length out of a chunked answer.
-/

open MyServer.HeaderLines

namespace MyServer.ResponseHeader

/-! ## What is written -/

/-- As the writer has it, the fields in the order of the hash map's iterator. -/
def HttpResponseHeader.written (response : HttpResponseHeader) (keys : List Str) :
    HeaderText.HttpResponseHeader where
  httpStatus := response.httpStatus
  ver := response.ver
  contentLength := response.contentLength
  errorType := response.errorType
  other := keys.map fun n => (n, ⟨n, (response.other n).getD []⟩)

/-- The iterator gives each field once. -/
structure Listed (keys : List Str) (other : Str → Option Str) : Prop where
  nodup : keys.Nodup
  mem : ∀ n, n ∈ keys ↔ other n ≠ none

def HttpResponseHeader.chunked (response : HttpResponseHeader) : Bool :=
  (response.other (ascii "transfer-encoding")).any (ascii "chunked" <:+: ·)

/-- What comes back. -/
def HttpResponseHeader.reread (response : HttpResponseHeader) : HttpResponseHeader where
  httpStatus := response.httpStatus
  ver := response.ver
  contentLength := if response.chunked then [] else response.contentLength
  errorType := if response.httpStatus = 200 then ascii "OK" else response.errorType
  other n :=
    if n = ascii "accept-ranges" then
      some (((response.other n).elim [] (· ++ ascii ", ")) ++ ascii "bytes")
    else response.other n

/-- The text is not too long for the scan, and no value for the parser. -/
structure WithinLimits (response : HttpResponseHeader) (text : Str) : Prop where
  size : text.countP (· ≠ LF) ≤ 4161
  values : ∀ n v, response.other n = some v → v.length ≤ HTTP_RESPONSE_OTHER_DIM

/-! ## Names and values -/

/-- It can stand in front of the colon. -/
structure IsName (name : Str) : Prop where
  ne : name ≠ []
  clean : ∀ b ∈ name, b ∉ 0 :: cmdSeps

/-- The key of a field. -/
structure IsKey (key : Str) : Prop where
  name : IsName key
  lower : key.map toLower = key
  length : key.length ≤ 95
  status : key ≠ ascii "status"
  contentLength : key ≠ ascii "content-length"

structure IsValue (value : Str) : Prop where
  one : OneLine value
  trimmed : value.head? ≠ some (ch ' ')

theorem IsValue.dropWhile {value : Str} (h : IsValue value) : value.dropWhile (· = ch ' ') = value := by
  cases value with
  | nil => rfl
  | cons c value =>
    apply List.dropWhile_cons_of_neg
    simpa using h.trimmed

theorem Field.isValue (field : Field) : IsValue field.value where
  one b hb := field.text_one b ((List.dropWhile_suffix _).subset hb)
  trimmed h := by
    have hhead := List.head?_dropWhile_not (· = ch ' ') field.text
    rw [Field.value] at h
    rw [h] at hhead
    simp at hhead

theorem IsValue.append {old value : Str} (hold : IsValue old) (hvalue : IsValue value) :
    IsValue (old ++ ascii ", " ++ value) where
  one := (hold.one.append (by decide)).append hvalue.one
  trimmed := by
    cases old with
    | nil => exact fun h => absurd h (by simp [ascii]; decide)
    | cons c old => exact hold.trimmed

/-- A letter is no separator. -/
theorem toLower_of_mem {b : Byte} (h : b ∈ 0 :: cmdSeps) : toLower b = b := by
  have hall : ∀ b ∈ (0 : Byte) :: cmdSeps, toLower b = b := by decide
  exact hall b h

theorem mem_of_toLower {b : Byte} (h : toLower b ∈ 0 :: cmdSeps) : b ∈ 0 :: cmdSeps := by
  have hseps : ∀ c ∈ (0 : Byte) :: cmdSeps, c.toNat < 97 := by decide
  rwa [eq_of_toLower (hseps _ h) rfl]

theorem IsName.cstr {name : Str} (h : IsName name) : cstr name = name :=
  cstr_of_notMem fun hzero => h.clean 0 hzero List.mem_cons_self

/-- Names are compared without regard to case. -/
theorem IsName.of_lower {name key : Str} (hkey : IsName key) (h : name.map toLower = key) : IsName name where
  ne := by
    rintro rfl
    exact hkey.ne h.symm
  clean b hb hmem := by
    have hlower : toLower b ∈ key := h ▸ List.mem_map_of_mem hb
    exact hkey.clean _ hlower (by rwa [toLower_of_mem hmem])

theorem IsName.lower {name : Str} (h : IsName name) : IsName (name.map toLower) where
  ne hnil := h.ne (List.map_eq_nil_iff.mp hnil)
  clean c hc hmem := by
    obtain ⟨b, hb, rfl⟩ := List.mem_map.mp hc
    exact h.clean b hb (mem_of_toLower hmem)

theorem caseEq_iff {name other : Str} (h : IsName name) (hother : (0 : Byte) ∉ other) :
    caseEq name other = true ↔ name.map toLower = other.map toLower := by
  unfold caseEq
  rw [h.cstr, cstr_of_notMem hother, decide_eq_true_eq]

theorem Field.isName (field : Field) : IsName field.command where
  ne h := by
    rcases List.take_eq_nil_iff.mp h with h | h
    · exact absurd h (by decide)
    · exact field.name_ne h
  clean b hb := by
    have hmem := (List.take_prefix 95 field.name).subset hb
    rw [List.mem_cons, not_or]
    exact ⟨fun hzero => field.name_zero (hzero ▸ hmem), field.name_seps b hmem⟩

theorem Field.isKey {field : Field} (hstatus : field.isStatus = false) (hlength : field.isLength = false) :
    IsKey (field.command.map toLower) where
  name := field.isName.lower
  lower := by
    rw [List.map_map]
    exact List.map_congr_left fun b _ => toLower_toLower b
  length := by
    rw [List.length_map]
    exact List.length_take_le 95 field.name
  status h := by
    have heq : field.isStatus = true := (caseEq_iff field.isName (by decide)).mpr (h.trans (by decide))
    exact Bool.false_ne_true (hstatus.symm.trans heq)
  contentLength h := by
    have heq : field.isLength = true := (caseEq_iff field.isName (by decide)).mpr (h.trans (by decide))
    exact Bool.false_ne_true (hlength.symm.trans heq)

/-! ## What the parser stores -/

/-- Each part can stand in the line that it is written to. -/
structure Kept (response : HttpResponseHeader) : Prop where
  http : ascii "HTTP/" <+: response.ver
  ver_one : OneLine response.ver
  ver_space : ch ' ' ∉ response.ver
  ver_length : response.ver.length ≤ 95
  status : -2 ^ 31 ≤ response.httpStatus ∧ response.httpStatus < 2 ^ 31
  reason_ne : response.errorType ≠ []
  reason_one : OneLine response.errorType
  length : IsValue response.contentLength
  other : ∀ n v, response.other n = some v → IsKey n ∧ IsValue v

theorem atoi_bounds (s : Str) : -2 ^ 31 ≤ atoi s ∧ atoi s < 2 ^ 31 := by
  have hlo := @BitVec.le_toInt 32 (BitVec.ofInt 32 (atoll s))
  have hhi := @BitVec.toInt_lt 32 (BitVec.ofInt 32 (atoll s))
  exact ⟨hlo, hhi⟩

theorem kept_first (first : StatusLine) (start : HttpResponseHeader) : Kept (start.free.first first) where
  http := by
    obtain ⟨rest, hver⟩ := first.http
    change ascii "HTTP/" <+: first.ver.take 95
    rw [← hver, List.take_append]
    exact List.prefix_append _ _
  ver_one b hb := first.ver_one b ((List.take_prefix 95 first.ver).subset hb)
  ver_space h := first.ver_space ((List.take_prefix 95 first.ver).subset h)
  ver_length := List.length_take_le 95 first.ver
  status := atoi_bounds first.code
  reason_ne := first.reason_ne
  reason_one := first.reason_one
  length := ⟨nofun, nofun⟩
  other := nofun

theorem Kept.line {response : HttpResponseHeader} (h : Kept response) (field : Field) :
    Kept (response.line field) := by
  unfold HttpResponseHeader.line
  by_cases hstatus : field.isStatus = true
  · rw [if_pos hstatus]
    refine { h with status := ?_ }
    dsimp only
    split_ifs
    · exact atoi_bounds field.value
    · exact h.status
  · rw [if_neg hstatus]
    by_cases hlength : field.isLength = true
    · rw [if_pos hlength]
      exact { h with length := field.isValue }
    · rw [if_neg hlength]
      refine { h with other := fun n v hv => ?_ }
      simp only [HttpResponseHeader.store] at hv
      by_cases hn : n = field.command.map toLower
      · rw [if_pos hn] at hv
        subst hn
        refine ⟨Field.isKey (Bool.eq_false_iff.mpr hstatus) (Bool.eq_false_iff.mpr hlength), ?_⟩
        obtain rfl := Option.some.inj hv
        split
        · exact field.isValue
        · rename_i old hold
          split_ifs
          · exact field.isValue
          · exact (h.other _ _ hold).2.append field.isValue
      · rw [if_neg hn] at hv
        exact h.other n v hv

theorem kept_lines {response : HttpResponseHeader} (h : Kept response) (fields : List Field) :
    Kept (fields.foldl HttpResponseHeader.line response) := by
  induction fields generalizing response with
  | nil => exact h
  | cons field fields ih => exact ih (h.line field)

/-! ## The lines that are written -/

/-- A line as the writer makes it, with one space. -/
def fieldOf (name value : Str) (hname : IsName name) (hvalue : OneLine value) : Field where
  name := name
  text := ch ' ' :: value
  name_ne := hname.ne
  name_zero h := hname.clean 0 h List.mem_cons_self
  name_seps b hb h := hname.clean b hb (List.mem_cons_of_mem 0 h)
  text_ne := List.cons_ne_nil _ _
  text_one := .cons (by decide) hvalue

section

variable {name value : Str} (hname : IsName name)

theorem value_fieldOf (hvalue : IsValue value) : (fieldOf name value hname hvalue.one).value = value := by
  change (ch ' ' :: value).dropWhile (· = ch ' ') = value
  rw [List.dropWhile_cons_of_pos (by decide), hvalue.dropWhile]

theorem command_fieldOf (hvalue : OneLine value) (hlength : name.length ≤ 95) :
    (fieldOf name value hname hvalue).command = name := List.take_of_length_le hlength

theorem line_fieldOf (hvalue : OneLine value) :
    (fieldOf name value hname hvalue).line = name ++ ascii ": " ++ value := by
  simp [fieldOf, Field.line, ascii]

end

section

variable {key value : Str}

theorem IsKey.capitalised (hkey : IsKey key) : IsName (HeaderText.capitalise true key) :=
  .of_lower hkey.name ((HeaderText.map_toLower_capitalise true key).trans hkey.lower)

/-- The line of a key. -/
def entryField (hkey : IsKey key) (hvalue : IsValue value) : Field :=
  fieldOf (HeaderText.capitalise true key) value hkey.capitalised hvalue.one

/-- It is stored under that key. -/
theorem line_entry (hkey : IsKey key) (hvalue : IsValue value) :
    let field := entryField hkey hvalue
    (field.fits = true ↔ value.length ≤ HTTP_RESPONSE_OTHER_DIM) ∧
      field.line ++ crlf = HeaderText.text (HeaderText.Entry.response ⟨key, value⟩) ∧
      ∀ response : HttpResponseHeader, response.other key = none →
        response.line field =
          { response with other := fun n => if n = key then some value else response.other n } := by
  intro field
  have hcommand : field.command = HeaderText.capitalise true key :=
    command_fieldOf _ _ (by rw [HeaderText.length_capitalise]; exact hkey.length)
  have hlower : field.command.map toLower = key := by
    rw [hcommand, HeaderText.map_toLower_capitalise, hkey.lower]
  have hstatus : field.isStatus = false := by
    apply Bool.eq_false_iff.mpr
    intro h
    have heq := (caseEq_iff field.isName (by decide)).mp h
    exact hkey.status (hlower.symm.trans (heq.trans (by decide)))
  have hlength : field.isLength = false := by
    apply Bool.eq_false_iff.mpr
    intro h
    have heq := (caseEq_iff field.isName (by decide)).mp h
    exact hkey.contentLength (hlower.symm.trans (heq.trans (by decide)))
  have hval : field.value = value := value_fieldOf _ hvalue
  refine ⟨?_, ?_, fun response hfresh => ?_⟩
  · simp [Field.fits, hstatus, hlength, hval]
  · have hzero := cstr_of_notMem hvalue.one.line.2
    have hcolon : cstr (ascii ": ") = ascii ": " := by decide
    have hcrlf : cstr crlf = crlf := by decide
    change (fieldOf _ _ hkey.capitalised hvalue.one).line ++ crlf = _
    rw [line_fieldOf]
    simp [HeaderText.text, HeaderText.Entry.response, HeaderText.Piece.text, hkey.name.cstr, hzero, hcolon,
      hcrlf]
  · simp [HttpResponseHeader.line, hstatus, hlength, HttpResponseHeader.store, hlower, hfresh, hval]

/-- The lines of all of them. -/
theorem exists_entries {keys : List Str} {value : Str → Str} (hnodup : keys.Nodup)
    (hgood : ∀ n ∈ keys, IsKey n ∧ IsValue (value n)) :
    ∃ fields : List Field,
      (fields.all Field.fits = true ↔ ∀ n ∈ keys, (value n).length ≤ HTTP_RESPONSE_OTHER_DIM) ∧
        fieldLines fields = HeaderText.text (keys.flatMap fun n => HeaderText.Entry.response ⟨n, value n⟩) ∧
          ∀ response : HttpResponseHeader, (∀ n ∈ keys, response.other n = none) →
            fields.foldl HttpResponseHeader.line response =
              { response with other := fun n => if n ∈ keys then some (value n) else response.other n } := by
  induction keys with
  | nil => exact ⟨[], by simp, rfl, fun response _ => by simp⟩
  | cons key keys ih =>
    obtain ⟨⟨hkey, hvalue⟩, hgood⟩ := List.forall_mem_cons.mp hgood
    obtain ⟨hnotMem, hnodup⟩ := List.nodup_cons.mp hnodup
    obtain ⟨fields, hfits, htext, hfold⟩ := ih hnodup hgood
    obtain ⟨hfit, hline, hstored⟩ := line_entry hkey hvalue
    refine ⟨entryField hkey hvalue :: fields, ?_, ?_, fun response hfresh => ?_⟩
    · rw [List.all_cons, Bool.and_eq_true, hfit, hfits, List.forall_mem_cons]
    · rw [fieldLines, List.flatMap_cons, hline, ← fieldLines, htext, List.flatMap_cons]
      exact List.flatMap_append.symm
    · obtain ⟨hfirst, hrest⟩ := List.forall_mem_cons.mp hfresh
      rw [List.foldl_cons, hstored response hfirst, hfold]
      · congr 1
        funext n
        by_cases hn : n = key
        · subst hn
          simp [hnotMem]
        · simp [hn]
      · intro n hn
        dsimp only
        rw [if_neg (by rintro rfl; exact hnotMem hn)]
        exact hrest n hn

end

/-! ## The written response -/

section

variable {response : HttpResponseHeader}

theorem notMem_codeSeps_decimalInt (i : Int) : ∀ b ∈ decimalInt i, b ∉ 0 :: codeSeps := by
  have hdigit : ∀ b ∈ (0 : Byte) :: codeSeps, b ≠ ch '-' ∧ isDigit b = false := by decide
  intro b hb hmem
  cases i with
  | ofNat n => exact absurd (isDigit_of_mem_decimal hb) (by rw [(hdigit b hmem).2]; exact Bool.false_ne_true)
  | negSucc n =>
    rcases List.mem_cons.mp hb with h | h
    · exact (hdigit b hmem).1 h
    · exact absurd (isDigit_of_mem_decimal h) (by rw [(hdigit b hmem).2]; exact Bool.false_ne_true)

theorem atoi_decimalInt {i : Int} (h : -2 ^ 31 ≤ i ∧ i < 2 ^ 31) : atoi (decimalInt i) = i := by
  unfold atoi
  rw [atoll_decimalInt]
  exact BitVec.toInt_ofInt_eq_self (by norm_num) h.1 h.2

/-- The status line that is written. -/
def Kept.statusLine (h : Kept response) : StatusLine where
  ver := response.ver
  code := decimalInt response.httpStatus
  reason := if response.httpStatus = 200 then ascii "OK" else response.errorType
  http := h.http
  ver_one := h.ver_one
  ver_space := h.ver_space
  code_ne := by
    cases response.httpStatus with
    | ofNat n => exact decimal_ne_nil n
    | negSucc n => exact List.cons_ne_nil _ _
  code_one b hb := by
    have hnot := notMem_codeSeps_decimalInt _ b hb
    refine ⟨?_, ?_, ?_⟩ <;>
    · rintro rfl
      exact hnot (by decide)
  code_seps b hb hmem := notMem_codeSeps_decimalInt _ b hb (List.mem_cons_of_mem 0 hmem)
  reason_ne := by
    split_ifs
    · decide
    · exact h.reason_ne
  reason_one := by
    split_ifs
    · decide
    · exact h.reason_one

/-- Written with a status that is not 200, so it changes nothing. -/
theorem exists_status (h : Kept response) : ∃ fields : List Field, fields.all Field.fits = true ∧
    fieldLines fields =
      (if response.httpStatus = 200 then [] else ascii "Status: " ++ response.errorType ++ crlf) ∧
        ∀ r : HttpResponseHeader, r.httpStatus = response.httpStatus →
          fields.foldl HttpResponseHeader.line r = r := by
  by_cases h200 : response.httpStatus = 200
  · exact ⟨[], rfl, by rw [if_pos h200]; rfl, fun r _ => rfl⟩
  · let field := fieldOf (ascii "Status") response.errorType ⟨by decide, by decide⟩ h.reason_one
    have hstatus : field.isStatus = true := rfl
    refine ⟨[field], by simp [Field.fits, hstatus], ?_, fun r hr => ?_⟩
    · rw [if_neg h200, fieldLines, List.flatMap_singleton, line_fieldOf]
      rfl
    · have hne : r.httpStatus ≠ 200 := hr ▸ h200
      simp [HttpResponseHeader.line, hstatus, hne]

theorem exists_length (h : Kept response) : ∃ fields : List Field, fields.all Field.fits = true ∧
    fieldLines fields = (if response.contentLength ≠ [] ∧ ¬ response.chunked = true then
      ascii "Content-length: " ++ response.contentLength ++ crlf else []) ∧
        ∀ r : HttpResponseHeader, r.contentLength = [] → fields.foldl HttpResponseHeader.line r =
          { r with contentLength := if response.chunked then [] else response.contentLength } := by
  by_cases hwritten : response.contentLength ≠ [] ∧ ¬ response.chunked = true
  · let field := fieldOf (ascii "Content-length") response.contentLength ⟨by decide, by decide⟩ h.length.one
    have hstatus : field.isStatus = false := rfl
    have hlength : field.isLength = true := rfl
    have hvalue : field.value = response.contentLength := value_fieldOf _ h.length
    refine ⟨[field], by simp [Field.fits, hlength], ?_, fun r _ => ?_⟩
    · rw [if_pos hwritten, fieldLines, List.flatMap_singleton, line_fieldOf]
      rfl
    · simp [HttpResponseHeader.line, hstatus, hlength, hvalue, hwritten.2]
  · refine ⟨[], rfl, by rw [if_neg hwritten]; rfl, fun r hr => ?_⟩
    have hsame : r.contentLength = if response.chunked then [] else response.contentLength := by
      rw [hr]
      split_ifs with hchunked
      · rfl
      · exact (of_not_not fun hne => hwritten ⟨fun heq => hne heq.symm, hchunked⟩)
    rw [List.foldl_nil, ← hsame]

def rangesField : Field :=
  fieldOf (ascii "Accept-Ranges") (ascii "bytes") ⟨by decide, by decide⟩ (by decide)

theorem line_ranges (r : HttpResponseHeader) : r.line rangesField =
    { r with
      other := fun n =>
        if n = ascii "accept-ranges" then
          some (((r.other (ascii "accept-ranges")).elim [] (· ++ ascii ", ")) ++ ascii "bytes")
        else r.other n } := by
  have hstatus : rangesField.isStatus = false := by decide
  have hlength : rangesField.isLength = false := by decide
  have hcommand : rangesField.command.map toLower = ascii "accept-ranges" := by decide
  have htype : caseEq rangesField.command (ascii "content-type") = false := by decide
  have hvalue : rangesField.value = ascii "bytes" := by decide
  simp only [HttpResponseHeader.line, hstatus, hlength, HttpResponseHeader.store, hcommand, htype, hvalue,
    Bool.false_eq_true, if_false]
  cases r.other (ascii "accept-ranges") <;> rfl

/-! ## The text -/

theorem text_status (h : Kept response) (keys : List Str) (messages : Int → Str) :
    HeaderText.text ((response.written keys).status messages) = h.statusLine.line ++ crlf ++
      (if response.httpStatus = 200 then [] else ascii "Status: " ++ response.errorType ++ crlf) := by
  have hver := cstr_of_notMem h.ver_one.line.2
  have hreason := cstr_of_notMem h.reason_one.line.2
  have hwritten : (response.written keys).httpStatus = response.httpStatus ∧
      (response.written keys).ver = response.ver ∧
        (response.written keys).errorType = response.errorType := ⟨rfl, rfl, rfl⟩
  unfold HeaderText.HttpResponseHeader.status
  simp only [hwritten, if_neg h.reason_ne, hver, hreason]
  by_cases h200 : response.httpStatus = 200
  · have hcode : decimalInt 200 = ascii "200" := by decide
    simp [h200, HeaderText.text, HeaderText.Piece.text, StatusLine.line, Kept.statusLine, hcode, ascii]
  · simp [h200, h.reason_ne, HeaderText.text, HeaderText.Piece.text, StatusLine.line, Kept.statusLine]

theorem lookup_written (keys : List Str) (n : Str) : (response.written keys).other.lookup n =
    if n ∈ keys then some ⟨n, (response.other n).getD []⟩ else none := by
  induction keys with
  | nil => rfl
  | cons key keys ih =>
    change List.lookup n ((key, _) :: (response.written keys).other) = _
    rw [List.lookup_cons, ih]
    by_cases hn : n = key
    · subst hn
      simp
    · rw [beq_eq_false_iff_ne.mpr hn]
      simp [hn]

theorem text_length {keys : List Str} (hlisted : Listed keys response.other) (h : Kept response) :
    HeaderText.text (response.written keys).length =
      if response.contentLength ≠ [] ∧ ¬ response.chunked = true then
        ascii "Content-length: " ++ response.contentLength ++ crlf else [] := by
  have hchunked : (((response.written keys).other.lookup (ascii "transfer-encoding")).any fun e =>
      ascii "chunked" <:+: e.value) = response.chunked := by
    rw [lookup_written, HttpResponseHeader.chunked]
    have hmem := hlisted.mem (ascii "transfer-encoding")
    cases hother : response.other (ascii "transfer-encoding") with
    | none => rw [if_neg (fun hin => hmem.mp hin hother)]; rfl
    | some v => rw [if_pos (hmem.mpr (by rw [hother]; exact nofun))]; rfl
  have hzero := cstr_of_notMem h.length.one.line.2
  have hname : cstr (ascii "Content-length: ") = ascii "Content-length: " := by decide
  have hcrlf : cstr crlf = crlf := by decide
  unfold HeaderText.HttpResponseHeader.length
  rw [hchunked]
  have hsame : (response.written keys).contentLength = response.contentLength := rfl
  rw [hsame]
  by_cases hlength : response.contentLength ≠ [] ∧ ¬ response.chunked = true
  · rw [if_pos hlength, if_pos hlength]
    simp [HeaderText.text, HeaderText.Piece.text, hzero, hname, hcrlf]
  · rw [if_neg hlength, if_neg hlength]
    rfl

/-- **The text that is written is a response again**, and this is what its lines give. -/
theorem exists_lines (h : Kept response) {keys : List Str} (hlisted : Listed keys response.other)
    (messages : Int → Str) : ∃ fields : List Field, fields ≠ [] ∧
      (fields.all Field.fits = true ↔
        ∀ n v, response.other n = some v → v.length ≤ HTTP_RESPONSE_OTHER_DIM) ∧
      HeaderText.text (HeaderText.responsePieces messages (response.written keys)) =
        (responseHeader h.statusLine fields).bytes ∧
      ∀ start : HttpResponseHeader, fields.foldl HttpResponseHeader.line (start.free.first h.statusLine) =
        response.reread := by
  have hgetD : ∀ {n v}, response.other n = some v → (response.other n).getD [] = v := by
    rintro n v hv
    rw [hv]
    rfl
  have hgood : ∀ n ∈ keys, IsKey n ∧ IsValue ((response.other n).getD []) := by
    intro n hn
    obtain ⟨v, hv⟩ := Option.ne_none_iff_exists'.mp ((hlisted.mem n).mp hn)
    rw [hgetD hv]
    exact h.other n v hv
  obtain ⟨statusFields, hstatusFits, hstatusText, hstatus⟩ := exists_status h
  obtain ⟨lengthFields, hlengthFits, hlengthText, hlength⟩ := exists_length h
  obtain ⟨entries, hentriesFits, hentriesText, hentries⟩ := exists_entries hlisted.nodup hgood
  refine ⟨statusFields ++ lengthFields ++ entries ++ [rangesField], by simp, ?_, ?_, fun start => ?_⟩
  · have hranges : rangesField.fits = true := by decide
    rw [List.all_append, List.all_append, List.all_append, hstatusFits, hlengthFits]
    simp only [Bool.true_and, List.all_cons, List.all_nil, hranges, Bool.and_true, hentriesFits]
    constructor
    · intro hall n v hv
      have hlen := hall n ((hlisted.mem n).mpr (by rw [hv]; exact nofun))
      rwa [hgetD hv] at hlen
    · intro hall n hn
      obtain ⟨v, hv⟩ := Option.ne_none_iff_exists'.mp ((hlisted.mem n).mp hn)
      rw [hgetD hv]
      exact hall n v hv
  · have hother : (response.written keys).other.flatMap (fun e => e.2.response) =
        keys.flatMap fun n => HeaderText.Entry.response ⟨n, (response.other n).getD []⟩ := by
      simp [HttpResponseHeader.written, List.flatMap_map]
    have hranges : rangesField.line ++ crlf = ascii "Accept-Ranges: bytes" ++ crlf := by decide
    have hcstr : cstr (ascii "Accept-Ranges: bytes" ++ crlf) = ascii "Accept-Ranges: bytes" ++ crlf := by
      decide
    have hcrlf : cstr crlf = crlf := by decide
    rw [HeaderText.responsePieces, hother, HeaderText.text_pieces_append, HeaderText.text_pieces_append, HeaderText.text_pieces_append,
      text_status h, text_length hlisted h, ← hstatusText, ← hlengthText, ← hentriesText, responseHeader_bytes]
    simp [fieldLines, HeaderText.text, HeaderText.Piece.text, hcstr, hcrlf, hranges]
  · rw [List.foldl_append, List.foldl_append, List.foldl_append, hstatus, hlength, hentries, List.foldl_cons,
      line_ranges, List.foldl_nil]
    · have hver : response.ver.take 95 = response.ver := List.take_of_length_le h.ver_length
      simp only [HttpResponseHeader.first, Kept.statusLine, hver, atoi_decimalInt h.status,
        HttpResponseHeader.free, HttpResponseHeader.reread]
      have hother : ∀ n, (if n ∈ keys then some ((response.other n).getD []) else none) = response.other n := by
        intro n
        have hmem := hlisted.mem n
        cases hn : response.other n with
        | none => exact if_neg fun hin => hmem.mp hin hn
        | some v => exact if_pos (hmem.mpr (by rw [hn]; exact nofun))
      simp only [hother]
      congr 1
      funext n
      split_ifs with hn
      · rw [hn]
      · rfl
    · exact fun n _ => rfl
    · rfl
    · exact atoi_decimalInt h.status

/-- What is written is read. -/
theorem build_written (h : Kept response) {keys : List Str} (hlisted : Listed keys response.other)
    (messages : Int → Str)
    (hlimits : WithinLimits response
      (HeaderText.text (HeaderText.responsePieces messages (response.written keys))))
    (buffer : Nat → Byte) (start : HttpResponseHeader) :
    buildHTTPResponseHeaderStruct
        (HeaderText.buildHTTPResponseHeader messages buffer (response.written keys)).memory start.free =
      .parsed (HeaderText.text (HeaderText.responsePieces messages (response.written keys)))
        (HeaderText.text (HeaderText.responsePieces messages (response.written keys))).length
        (.returned true response.reread) := by
  obtain ⟨fields, hne, hfits, htext, hfold⟩ := exists_lines h hlisted messages
  have hall := hfits.mpr hlimits.values
  have hcount := (responseHeader h.statusLine fields).countP_bytes
  have hlength := (responseHeader h.statusLine fields).length_le
  have hsize : (responseHeader h.statusLine fields).size ≤ 4160 := by
    have := hlimits.size
    rw [htext, hcount] at this
    omega
  have hmax : HeaderText.MAX = 8192 := rfl
  have hwritten : (HeaderText.buildHTTPResponseHeader messages buffer (response.written keys)).text =
      (responseHeader h.statusLine fields).bytes :=
    (HeaderText.written _ buffer (by rw [htext]; omega)).trans htext
  have hmemory := HeaderText.memory_text
    (HeaderText.buildHTTPResponseHeader messages buffer (response.written keys))
  rw [hwritten] at hmemory
  have hfields : (responseHeader h.statusLine fields).fields ≠ [] := by simpa [responseHeader] using hne
  rw [hmemory, Proxy.build_memory, if_pos ⟨hfields, hsize⟩, parse_response, hall,
    List.takeWhile_eq_self_iff.mpr (List.all_eq_true.mp hall), hfold, htext]

end

/-! ## From a response to a response -/

section

variable (first : StatusLine) (fields : List Field) (behind : Nat → Byte)

/-- A response is read as the lines that it is made of. -/
theorem build_lines (start : HttpResponseHeader) :
    buildHTTPResponseHeaderStruct (memory (responseHeader first fields).bytes behind) start =
      if fields ≠ [] ∧ (responseHeader first fields).size ≤ 4160 then
        .parsed (responseHeader first fields).bytes (responseHeader first fields).bytes.length
          (.returned (fields.all Field.fits)
            ((fields.takeWhile Field.fits).foldl HttpResponseHeader.line (start.first first)))
      else .notValid := by
  have hfields : (responseHeader first fields).fields ≠ [] ↔ fields ≠ [] := by simp [responseHeader]
  rw [Proxy.build_memory, parse_response]
  simp only [hfields]

theorem kept_of_build {start response : HttpResponseHeader} {input : Str} {nbtr : Nat}
    (h : buildHTTPResponseHeaderStruct (memory (responseHeader first fields).bytes behind) start.free =
      .parsed input nbtr (.returned true response)) : Kept response := by
  rw [build_lines] at h
  split_ifs at h
  obtain ⟨-, -, hreturned⟩ := Built.parsed.inj h
  obtain ⟨-, rfl⟩ := Parsed.returned.inj hreturned
  exact kept_lines (kept_first first start) _

/-- **Lines are kept apart**: with a reason and something behind every colon, the parse goes line by
line. What it has stored is then written and read again without a loss, but for the length of a chunked
answer, and with the line of the ranges. -/
theorem kept_apart (start : HttpResponseHeader) :
    (buildHTTPResponseHeaderStruct (memory (responseHeader first fields).bytes behind) start =
      if fields ≠ [] ∧ (responseHeader first fields).size ≤ 4160 then
        .parsed (responseHeader first fields).bytes (responseHeader first fields).bytes.length
          (.returned (fields.all Field.fits)
            ((fields.takeWhile Field.fits).foldl HttpResponseHeader.line (start.first first)))
      else .notValid) ∧
    ∀ input nbtr response,
      buildHTTPResponseHeaderStruct (memory (responseHeader first fields).bytes behind) start.free =
        .parsed input nbtr (.returned true response) →
      ∀ keys, Listed keys response.other → ∀ messages buffer,
        let text := HeaderText.text (HeaderText.responsePieces messages (response.written keys))
        WithinLimits response text →
          buildHTTPResponseHeaderStruct
              (HeaderText.buildHTTPResponseHeader messages buffer (response.written keys)).memory start.free =
            .parsed text text.length (.returned true response.reread) := by
  refine ⟨build_lines first fields behind start, ?_⟩
  intro input nbtr response hbuild keys hlisted messages buffer text hlimits
  exact build_written (kept_of_build first fields behind hbuild) hlisted messages hlimits buffer start

end

/-! ## One field -/

def okLine : StatusLine where
  ver := ascii "HTTP/1.1"
  code := ascii "200"
  reason := ascii "OK"
  http := by decide
  ver_one := oneLine_version
  ver_space := space_notMem_version
  code_ne := by decide
  code_one := by decide
  code_seps := by decide
  reason_ne := by decide
  reason_one := by decide

def serverField : Field :=
  fieldOf (ascii "Server") (ascii "x") ⟨by decide, by decide⟩ (by decide)

def serverResponse : HttpResponseHeader where
  httpStatus := 200
  ver := ascii "HTTP/1.1"
  contentLength := []
  errorType := ascii "OK"
  other n := if n = ascii "server" then some (ascii "x") else none

theorem server_build (behind : Nat → Byte) :
    buildHTTPResponseHeaderStruct (memory (responseHeader okLine [serverField]).bytes behind)
        Proxy.emptyResponse.free =
      .parsed (responseHeader okLine [serverField]).bytes (responseHeader okLine [serverField]).bytes.length
        (.returned true serverResponse) := by
  have hfits : [serverField].all Field.fits = true := by decide
  have hline : (Proxy.emptyResponse.free.first okLine).line serverField = serverResponse := by
    have hstatus : serverField.isStatus = false := by decide
    have hlength : serverField.isLength = false := by decide
    have hcommand : serverField.command.map toLower = ascii "server" := by decide
    have hvalue : serverField.value = ascii "x" := by decide
    have hcode : atoi okLine.code = 200 := by decide
    have hver : okLine.ver.take 95 = ascii "HTTP/1.1" := by decide
    simp only [HttpResponseHeader.line, hstatus, hlength, Bool.false_eq_true, if_false,
      HttpResponseHeader.store, hcommand, hvalue, HttpResponseHeader.first, hcode, hver]
    rfl
  rw [build_lines, if_pos ⟨List.cons_ne_nil _ _, by decide⟩, hfits,
    List.takeWhile_eq_self_iff.mpr (List.all_eq_true.mp hfits), List.foldl_cons, List.foldl_nil, hline]

theorem server_listed : Listed [ascii "server"] serverResponse.other where
  nodup := List.nodup_singleton _
  mem n := by simp [serverResponse]

theorem server_limits : WithinLimits serverResponse (HeaderText.text (HeaderText.responsePieces (fun _ => [])
    (serverResponse.written [ascii "server"]))) where
  size := by decide
  values n v h := by
    simp only [serverResponse] at h
    split_ifs at h
    obtain rfl := Option.some.inj h
    decide

theorem server_kept_apart : buildHTTPResponseHeaderStruct (HeaderText.buildHTTPResponseHeader (fun _ => [])
      (fun _ => 0) (serverResponse.written [ascii "server"])).memory Proxy.emptyResponse.free =
    .parsed (ascii "HTTP/1.1 200 OK" ++ crlf ++ ascii "Server: x" ++ crlf ++ ascii "Accept-Ranges: bytes" ++
      crlf ++ crlf) 52 (.returned true serverResponse.reread) :=
  (kept_apart okLine [serverField] (fun _ => 0) Proxy.emptyResponse).2 _ _ _ (server_build _) _ server_listed
    _ _ server_limits

/-- The line of the ranges is in the map. -/
theorem not_recovered : ¬ ∀ (first : StatusLine) (fields : List Field) (behind : Nat → Byte)
    (start response : HttpResponseHeader) (input : Str) (nbtr : Nat) (keys : List Str) (messages : Int → Str)
    (buffer : Nat → Byte),
    buildHTTPResponseHeaderStruct (memory (responseHeader first fields).bytes behind) start.free =
      .parsed input nbtr (.returned true response) → Listed keys response.other →
    ∃ input' nbtr' response',
      buildHTTPResponseHeaderStruct
          (HeaderText.buildHTTPResponseHeader messages buffer (response.written keys)).memory start.free =
        .parsed input' nbtr' (.returned true response') ∧
      response'.httpStatus = response.httpStatus ∧ response'.other = response.other := by
  intro hall
  obtain ⟨input, nbtr, response', hbuild, -, hother⟩ := hall okLine [serverField] (fun _ => 0)
    Proxy.emptyResponse serverResponse _ _ [ascii "server"] (fun _ => []) (fun _ => 0) (server_build _)
    server_listed
  have hkept := kept_of_build okLine [serverField] _ (server_build fun _ => 0)
  rw [build_written hkept server_listed _ server_limits] at hbuild
  obtain ⟨-, -, hreturned⟩ := Built.parsed.inj hbuild
  obtain ⟨-, rfl⟩ := Parsed.returned.inj hreturned
  have hnone := congrFun hother (ascii "accept-ranges")
  exact absurd hnone (by decide)

end MyServer.ResponseHeader
