import MyServer.Http.RequestTurns

/-!
# Fields that come more than once

A value is appended to the one that is there, with `", "` between them. What is left of the room is counted
behind the separator.
-/

open MyServer.HeaderLines
open MyServer.ResponseHeader (HTTP_RESPONSE_OTHER_DIM)

namespace MyServer.RequestHeader

/-! ## What the fields say -/

/-- The separator of two values. -/
def comma : Str := ascii ", "

namespace HeaderLine

/-- A line that is stored under its name. -/
def isOther (line : HeaderLine) : Bool :=
  !caseEq line.command (ascii "Authorization") && !caseEq line.command (ascii "Content-length") &&
    !caseEq line.command (ascii "Range")

def key (line : HeaderLine) : Str := line.command.map toLower

/-- The parser takes the line and goes on behind it. What is stored under a name is always taken, as far as
the line goes. -/
def Accepted (line : HeaderLine) : Prop :=
  line.isOther = true ∨ ∀ maxTotchars more request connection, line.value.length < maxTotchars →
    ∃ request' connection', readLine maxTotchars (line.value ++ crlf ++ more) line.command line.name.length request
      connection = .ok request' connection' line.value.length

end HeaderLine

/-- The values under a name, in the order of the lines. -/
def valuesOf (lines : List HeaderLine) (key : Str) : List Str :=
  (lines.filter fun line => line.isOther && decide (line.key = key)).map HeaderLine.value

/-- What is to be stored under a name. -/
def merged (lines : List HeaderLine) (key : Str) : Option Str :=
  match valuesOf lines key with
  | [] => none
  | values => some ((comma.intercalate values).take HTTP_RESPONSE_OTHER_DIM)

/-- Behind all values of a name but the last there is still room for a separator. -/
def HasRoom (lines : List HeaderLine) : Prop :=
  ∀ key, (comma.intercalate (valuesOf lines key).dropLast).length + comma.length ≤ HTTP_RESPONSE_OTHER_DIM

/-- The parser gets to the end, and each name has its values. -/
def Merges (parsed : Parsed) (lines : List HeaderLine) : Prop :=
  ∃ nHeaderChars request connection, parsed = .ok nHeaderChars request connection ∧
    ∀ key, request.other key = merged lines key

/-! ## Joined values -/

theorem intercalate_concat (values : List Str) (value : Str) (hne : values ≠ []) :
    comma.intercalate (values ++ [value]) = comma.intercalate values ++ comma ++ value := by
  induction values with
  | nil => exact absurd rfl hne
  | cons v values ih =>
    cases values with
    | nil => simp [List.intercalate_cons_cons, List.intercalate_singleton]
    | cons w values =>
      rw [List.cons_append, List.cons_append, List.intercalate_cons_cons, List.intercalate_cons_cons,
        ← List.cons_append, ih (List.cons_ne_nil _ _)]
      simp only [List.append_assoc]

theorem length_intercalate_le {a b : List Str} (h : a <+: b) :
    (comma.intercalate a).length ≤ (comma.intercalate b).length := by
  obtain ⟨c, rfl⟩ := h
  induction c using List.reverseRecOn with
  | nil => rw [List.append_nil]
  | append_singleton c value ih =>
    rw [← List.append_assoc]
    by_cases hne : a ++ c = []
    · obtain ⟨rfl, rfl⟩ := List.append_eq_nil_iff.mp hne
      exact Nat.zero_le _
    · rw [intercalate_concat _ _ hne]
      simp only [List.length_append] at ih ⊢
      omega

theorem valuesOf_append (a b : List HeaderLine) (key : Str) :
    valuesOf (a ++ b) key = valuesOf a key ++ valuesOf b key := by
  unfold valuesOf
  rw [List.filter_append, List.map_append]

theorem valuesOf_singleton (line : HeaderLine) (key : Str) :
    valuesOf [line] key = if line.isOther ∧ line.key = key then [line.value] else [] := by
  unfold valuesOf
  by_cases h : line.isOther = true ∧ line.key = key
  · rw [if_pos h, List.filter_cons_of_pos (by simpa using h)]
    rfl
  · rw [if_neg h, List.filter_cons_of_neg (by simpa using h)]
    rfl

theorem isPrefix_dropLast {a b : List Str} (h : a <+: b) : a.dropLast <+: b.dropLast := by
  rw [List.dropLast_eq_take, List.dropLast_eq_take]
  obtain ⟨c, rfl⟩ := h
  rw [← @List.take_append_of_le_length _ a c _ (Nat.sub_le a.length 1), List.length_append]
  exact List.take_prefix_take_left (by omega)

/-- Where there was no room, none comes. -/
theorem HasRoom.front {a b : List HeaderLine} (h : HasRoom (a ++ b)) : HasRoom a := by
  intro key
  have hle := h key
  rw [valuesOf_append] at hle
  have hprefix : valuesOf a key <+: valuesOf a key ++ valuesOf b key := List.prefix_append _ _
  have hlength := length_intercalate_le (isPrefix_dropLast hprefix)
  omega

theorem merged_eq_none {lines : List HeaderLine} {key : Str} : merged lines key = none ↔ valuesOf lines key = [] := by
  unfold merged
  cases valuesOf lines key <;> simp

theorem merged_of_ne {lines : List HeaderLine} {key : Str} (h : valuesOf lines key ≠ []) :
    merged lines key = some ((comma.intercalate (valuesOf lines key)).take HTTP_RESPONSE_OTHER_DIM) := by
  unfold merged
  cases hvalues : valuesOf lines key with
  | nil => exact absurd hvalues h
  | cons v values => rfl

theorem merged_congr {a b : List HeaderLine} {key : Str} (h : valuesOf a key = valuesOf b key) :
    merged a key = merged b key := by
  unfold merged
  rw [h]

theorem hasRoom_nil : (comma.intercalate ([] : List Str)).length + comma.length ≤ HTTP_RESPONSE_OTHER_DIM := by
  decide

/-! ## One line more -/

theorem hasRoom_concat {done : List HeaderLine} {line : HeaderLine} :
    HasRoom (done ++ [line]) ↔ HasRoom done ∧ (line.isOther = true →
      (comma.intercalate (valuesOf done line.key)).length + comma.length ≤ HTTP_RESPONSE_OTHER_DIM) := by
  constructor
  · intro h
    refine ⟨h.front, fun hother => ?_⟩
    have hkey := h line.key
    rwa [valuesOf_append, valuesOf_singleton, if_pos ⟨hother, rfl⟩, List.dropLast_concat] at hkey
  · rintro ⟨hdone, hline⟩ key
    rw [valuesOf_append, valuesOf_singleton]
    split_ifs with hkey
    · obtain ⟨hother, rfl⟩ := hkey
      rw [List.dropLast_concat]
      exact hline hother
    · rw [List.append_nil]
      exact hdone key

/-- A line that is not stored leaves the values as they are. -/
theorem valuesOf_other {done : List HeaderLine} {line : HeaderLine} {key : Str}
    (h : ¬(line.isOther = true ∧ line.key = key)) : valuesOf (done ++ [line]) key = valuesOf done key := by
  rw [valuesOf_append, valuesOf_singleton, if_neg h, List.append_nil]

/-- As much as there is room for, behind the values that are there. -/
theorem take_merged {joined value : Str} (h : joined.length + comma.length ≤ HTTP_RESPONSE_OTHER_DIM) :
    joined ++ comma ++ value.take (min (HTTP_RESPONSE_OTHER_DIM - (joined ++ comma).length) value.length) =
      (joined ++ comma ++ value).take HTTP_RESPONSE_OTHER_DIM := by
  rw [List.take_append, List.take_of_length_le (l := joined ++ comma) (by rw [List.length_append]; exact h),
    ← List.take_take, List.take_length]

section

variable {request : HttpRequestHeader} {connection : Connection} {done : List HeaderLine} {line : HeaderLine}

/-- **A value is stored**: with room for the separator, and then as much of it as there is room for. -/
theorem store_merged (hother : line.isOther = true) (hdone : ∀ key, request.other key = merged done key)
    (hroom : HasRoom done) :
    (∃ request', request.store line.command line.value line.value.length = some request' ∧
        HasRoom (done ++ [line]) ∧ ∀ key, request'.other key = merged (done ++ [line]) key) ∨
      request.store line.command line.value line.value.length = none ∧ ¬HasRoom (done ++ [line]) := by
  have hkey : line.command.map toLower = line.key := rfl
  have hvalues : valuesOf (done ++ [line]) line.key = valuesOf done line.key ++ [line.value] := by
    rw [valuesOf_append, valuesOf_singleton, if_pos ⟨hother, rfl⟩]
  have hmerged : merged (done ++ [line]) line.key =
      some ((comma.intercalate (valuesOf done line.key ++ [line.value])).take HTTP_RESPONSE_OTHER_DIM) := by
    rw [merged_of_ne (by rw [hvalues]; exact List.append_ne_nil_of_right_ne_nil _ (List.cons_ne_nil _ _)), hvalues]
  -- What is stored under the name settles all names.
  have hput : ∀ value, some value = merged (done ++ [line]) line.key → ∀ key,
      (if key = line.key then some value else request.other key) = merged (done ++ [line]) key := by
    intro value hvalue key
    split_ifs with heq
    · rw [heq, hvalue]
    · rw [hdone key]
      exact merged_congr (valuesOf_other fun h => heq h.2.symm).symm
  unfold HttpRequestHeader.store
  simp only [hkey, hdone line.key]
  by_cases hne : valuesOf done line.key = []
  · left
    rw [merged_eq_none.mpr hne]
    refine ⟨_, rfl, hasRoom_concat.mpr ⟨hroom, fun _ => by rw [hne]; decide⟩, hput _ ?_⟩
    rw [hmerged, hne, List.nil_append, List.intercalate_singleton, ← List.take_take, List.take_length]
  · rw [merged_of_ne hne]
    dsimp only
    generalize hjoined : comma.intercalate (valuesOf done line.key) = joined
    have hlength : (joined.take HTTP_RESPONSE_OTHER_DIM ++ ascii ", ").length =
        min HTTP_RESPONSE_OTHER_DIM joined.length + comma.length := by
      rw [List.length_append, List.length_take]
      rfl
    have htwo : comma.length = 2 := rfl
    by_cases hlong : joined.length + comma.length ≤ HTTP_RESPONSE_OTHER_DIM
    · left
      have htake : joined.take HTTP_RESPONSE_OTHER_DIM = joined := List.take_of_length_le (by omega)
      rw [if_neg (by omega)]
      refine ⟨_, rfl, hasRoom_concat.mpr ⟨hroom, fun _ => hjoined ▸ hlong⟩, hput _ ?_⟩
      rw [hmerged, intercalate_concat _ _ hne, hjoined, htake, ← take_merged hlong]
      rfl
    · right
      rw [if_pos (by omega)]
      exact ⟨rfl, fun h => hlong (hjoined ▸ (hasRoom_concat.mp h).2 hother)⟩

/-- A line that is not stored leaves the others. -/
theorem other_of_readLine {maxTotchars tokenOff n : Nat} {token command : Str} {request' : HttpRequestHeader}
    {connection' : Connection}
    (hspecial : (!caseEq command (ascii "Authorization") && !caseEq command (ascii "Content-length") &&
      !caseEq command (ascii "Range")) = false)
    (h : readLine maxTotchars token command tokenOff request connection = .ok request' connection' n) :
    request'.other = request.other := by
  unfold readLine at h
  split_ifs at h with hauthorization hlength hrange
  · split at h
    · cases h
    · cases h
    · rw [← (Line.ok.inj h).1]
  · split at h
    · cases h
    · rw [← (Line.ok.inj h).1]
  · split at h
    · cases h
    · rw [← (Line.ok.inj h).1]
  · simp [hauthorization, hlength, hrange] at hspecial

end

/-! ## All lines -/

section

variable {input before more : Str} {maxTotchars fuel : Nat} {request : HttpRequestHeader}
  {connection : Connection} {done : List HeaderLine}

/-- The turn for a line. -/
theorem resume_merged_line {line : HeaderLine} (haccepted : line.Accepted)
    (hinput : input = before ++ (line.text ++ crlf ++ more)) (hmax : (before ++ line.text).length < maxTotchars)
    (hdone : ∀ key, request.other key = merged done key) (hroom : HasRoom done) :
    (∃ request' connection', resume input maxTotchars (fuel + 1) (line.text ++ crlf ++ more) request connection =
        resume input maxTotchars fuel more request' connection' ∧ HasRoom (done ++ [line]) ∧
        ∀ key, request'.other key = merged (done ++ [line]) key) ∨
      resume input maxTotchars (fuel + 1) (line.text ++ crlf ++ more) request connection = .undefined ∧
        ¬HasRoom (done ++ [line]) := by
  have hvalue : line.value.length < maxTotchars := by
    simp only [HeaderLine.text, List.length_append, List.length_cons] at hmax
    omega
  rw [resume_line line hinput hmax]
  by_cases hother : line.isOther = true
  · have hnames := hother
    simp only [HeaderLine.isOther, Bool.and_eq_true, Bool.not_eq_true'] at hnames
    obtain ⟨⟨hauthorization, hlength⟩, hrange⟩ := hnames
    rw [readLine_ordinary ⟨hauthorization, hrange⟩ hvalue]
    unfold HeaderLine.given
    rw [hlength]
    simp only [Bool.false_eq_true, if_false]
    rcases @store_merged request done line hother hdone hroom with ⟨request', hstore, hroom', hmerged⟩ |
      ⟨hstore, hfull⟩
    · left
      rw [hstore]
      refine ⟨request', connection, ?_, hroom', hmerged⟩
      simp only [goOn, drop_value]
    · right
      rw [hstore]
      exact ⟨rfl, hfull⟩
  · left
    obtain ⟨request', connection', hread⟩ :=
      (haccepted.resolve_left hother) maxTotchars more request connection hvalue
    have hspecial : (!caseEq line.command (ascii "Authorization") && !caseEq line.command (ascii "Content-length") &&
        !caseEq line.command (ascii "Range")) = false := by simpa [HeaderLine.isOther] using hother
    rw [hread]
    refine ⟨request', connection', ?_, hasRoom_concat.mpr ⟨hroom, fun h => absurd h hother⟩, fun key => ?_⟩
    · simp only [goOn, drop_value]
    · rw [other_of_readLine hspecial hread, hdone key]
      exact merged_congr (valuesOf_other fun h => hother h.1).symm

/-- The loop over the lines. -/
theorem resume_merged {lines : List HeaderLine} (haccepted : ∀ line ∈ lines, line.Accepted)
    (hinput : input = before ++ (linesText lines ++ more)) (hmax : (before ++ linesText lines).length ≤ maxTotchars)
    (hdone : ∀ key, request.other key = merged done key) (hroom : HasRoom done) :
    (∃ request' connection', resume input maxTotchars (fuel + lines.length) (linesText lines ++ more) request
        connection = resume input maxTotchars fuel more request' connection' ∧ HasRoom (done ++ lines) ∧
        ∀ key, request'.other key = merged (done ++ lines) key) ∨
      resume input maxTotchars (fuel + lines.length) (linesText lines ++ more) request connection = .undefined ∧
        ¬HasRoom (done ++ lines) := by
  induction lines generalizing before request connection done with
  | nil =>
    left
    rw [List.append_nil]
    exact ⟨request, connection, rfl, hroom, hdone⟩
  | cons line lines ih =>
    obtain ⟨hfirst, haccepted⟩ := List.forall_mem_cons.mp haccepted
    have hcrlf : crlf.length = 2 := rfl
    have hcons : linesText (line :: lines) = line.text ++ crlf ++ linesText lines := List.flatMap_cons
    have hshape : linesText (line :: lines) ++ more = line.text ++ crlf ++ (linesText lines ++ more) := by
      rw [hcons, List.append_assoc]
    have hsplit : done ++ line :: lines = done ++ [line] ++ lines := by rw [List.append_assoc]; rfl
    have hfuel : fuel + (line :: lines).length = fuel + lines.length + 1 := rfl
    have hlength : (linesText (line :: lines)).length = line.text.length + 2 + (linesText lines).length := by
      rw [hcons, List.length_append, List.length_append, hcrlf]
    rw [List.length_append, hlength] at hmax
    rw [hshape] at hinput ⊢
    rw [hfuel, hsplit]
    rcases @resume_merged_line input before (linesText lines ++ more) maxTotchars (fuel + lines.length) request
        connection done line hfirst hinput (by rw [List.length_append]; omega) hdone hroom with
      ⟨request', connection', hturn, hroom', hdone'⟩ | ⟨hturn, hfull⟩
    · rw [hturn]
      refine @ih (before ++ (line.text ++ crlf)) request' connection' (done ++ [line]) haccepted ?_ ?_ hdone' hroom'
      · rw [hinput]
        simp
      · simp only [List.length_append, hcrlf]
        omega
    · right
      rw [hturn]
      exact ⟨rfl, fun h => hfull h.front⟩

end

section

variable {first : RequestLine} {lines : List HeaderLine} {inputSize : Nat}

/-- Either the values are merged or a length is negative. -/
theorem build_merged (hlimits : Limits (headerOf first lines) inputSize)
    (haccepted : ∀ line ∈ lines, line.Accepted) (rest : Str) (connection : Connection) :
    Merges (buildHTTPRequestHeaderStruct ((headerOf first lines).bytes ++ rest) inputSize .free connection) lines ∧
        HasRoom lines ∨
      buildHTTPRequestHeaderStruct ((headerOf first lines).bytes ++ rest) inputSize .free connection = .undefined ∧
        ¬HasRoom lines := by
  have hshape : (headerOf first lines).bytes ++ rest =
      first.line ++ crlf ++ (linesText lines ++ (crlf ++ rest)) := by
    rw [headerOf_bytes]
    simp only [List.append_assoc]
  have hmax : (first.line ++ crlf ++ linesText lines).length ≤ (headerOf first lines).bytes.length := by
    rw [headerOf_bytes]
    simp only [List.length_append]
    omega
  obtain ⟨fuel, hfuel⟩ : ∃ fuel, ((headerOf first lines).bytes ++ rest).length = fuel + lines.length := by
    have hle := length_le_linesText lines
    refine ⟨((headerOf first lines).bytes ++ rest).length - lines.length, ?_⟩
    rw [hshape]
    simp only [List.length_append]
    omega
  have hnone : HasRoom [] := fun _ => hasRoom_nil
  rw [build_lines hlimits, hfuel]
  rcases @resume_merged _ _ (crlf ++ rest) _ fuel (HttpRequestHeader.free.requested first) connection [] lines
      haccepted hshape hmax (fun _ => rfl) hnone with ⟨request, connection', hrun, hroom, hmerged⟩ | ⟨hrun, hfull⟩
  · left
    rw [hrun, resume_end rest]
    exact ⟨⟨_, request, connection', rfl, hmerged⟩, hroom⟩
  · exact Or.inr ⟨hrun, hfull⟩

/-- **Repeated fields are merged** when there is room behind each value that another one follows. -/
theorem merges_iff (hlimits : Limits (headerOf first lines) inputSize) (haccepted : ∀ line ∈ lines, line.Accepted)
    (rest : Str) (connection : Connection) :
    Merges (buildHTTPRequestHeaderStruct ((headerOf first lines).bytes ++ rest) inputSize .free connection) lines ↔
      HasRoom lines := by
  rcases build_merged hlimits haccepted rest connection with ⟨hmerges, hroom⟩ | ⟨hundefined, hfull⟩
  · exact ⟨fun _ => hroom, fun _ => hmerges⟩
  · refine ⟨?_, fun h => absurd h hfull⟩
    rintro ⟨n, request, connection', hok, -⟩
    rw [hundefined] at hok
    cases hok

end

/-! ## A field that comes four times -/

/-- A cookie of so many characters. -/
def cookieLine (n : Nat) : HeaderLine where
  name := ascii "Cookie"
  blanks := 1
  value := List.replicate n (ch 'a')
  name_one := by decide
  name_colon := by decide
  value_one b hb := by
    rw [List.eq_of_mem_replicate hb]
    decide
  value_trimmed h := by
    have heq := List.eq_of_mem_replicate (List.mem_of_head? h)
    exact absurd heq (by decide)

theorem cookieLine_isOther (n : Nat) : (cookieLine n).isOther = true := by
  have hcommand : (cookieLine n).command = ascii "Cookie" := by
    change (ascii "Cookie").take 95 = ascii "Cookie"
    decide
  unfold HeaderLine.isOther
  rw [hcommand]
  decide

theorem cookieLine_key (n : Nat) : (cookieLine n).key = ascii "cookie" := by
  change ((ascii "Cookie").take 95).map toLower = ascii "cookie"
  decide

theorem cookieLine_length (n : Nat) : (cookieLine n).text.length = n + 8 := by
  have hname : (ascii "Cookie").length = 6 := by decide
  simp only [HeaderLine.text, cookieLine, List.length_append, List.length_cons, List.length_replicate, hname]
  omega

theorem valuesOf_cookies (lengths : List Nat) :
    valuesOf (lengths.map cookieLine) (ascii "cookie") = lengths.map fun n => List.replicate n (ch 'a') := by
  unfold valuesOf
  rw [List.filter_eq_self.mpr]
  · rw [List.map_map]
    rfl
  · intro line hline
    obtain ⟨n, -, rfl⟩ := List.mem_map.mp hline
    rw [cookieLine_isOther, cookieLine_key]
    decide

theorem cookies_accepted (lengths : List Nat) : ∀ line ∈ lengths.map cookieLine, line.Accepted := by
  intro line hline
  obtain ⟨n, -, rfl⟩ := List.mem_map.mp hline
  exact Or.inl (cookieLine_isOther n)

theorem cookies_limits {lengths : List Nat} (hlengths : ∀ n ∈ lengths, n ≤ 2038) (hnumber : lengths.length ≤ 25)
    (hsum : (lengths.map (· + 10)).sum ≤ 8100) : Limits (headerOf resourceLine (lengths.map cookieLine)) 8192 := by
  have hfirst : resourceLine.line.length = 27 := by decide
  have hcrlf : crlf.length = 2 := rfl
  have hlines : (linesText (lengths.map cookieLine)).length = (lengths.map (· + 10)).sum := by
    unfold linesText
    rw [List.length_flatMap, List.map_map]
    congr 1
    apply List.map_congr_left
    intro n _
    simp only [Function.comp_apply, List.length_append, cookieLine_length, hcrlf]
  have hbytes : (headerOf resourceLine (lengths.map cookieLine)).bytes.length = 31 + (lengths.map (· + 10)).sum := by
    rw [headerOf_bytes]
    simp only [List.length_append, hfirst, hcrlf, hlines]
    omega
  refine ⟨⟨?_, ?_, ?_⟩, by omega, by omega⟩
  · change resourceLine.line.length + 1 ≤ 2048
    omega
  · intro l hl
    obtain ⟨line, hline, rfl⟩ := List.mem_map.mp (show l ∈ (lengths.map cookieLine).map HeaderLine.text from hl)
    obtain ⟨n, hn, rfl⟩ := List.mem_map.mp hline
    have hle := hlengths n hn
    rw [cookieLine_length]
    omega
  · change ((lengths.map cookieLine).map HeaderLine.text).length ≤ 25
    rw [List.length_map, List.length_map]
    exact hnumber

theorem merges_cookies : Limits (headerOf resourceLine ([1, 2].map cookieLine)) 8192 ∧
    Merges (buildHTTPRequestHeaderStruct ((headerOf resourceLine ([1, 2].map cookieLine)).bytes ++ [0]) 8192 .free
      ⟨[], []⟩) ([1, 2].map cookieLine) := by
  have hlimits := @cookies_limits [1, 2] (by decide) (by decide) (by decide)
  refine ⟨hlimits, (merges_iff hlimits (cookies_accepted [1, 2]) [0] ⟨[], []⟩).mpr ?_⟩
  have hfirst : HasRoom ([1].map cookieLine) := by
    rw [show [1].map cookieLine = [] ++ [cookieLine 1] from rfl, hasRoom_concat]
    exact ⟨fun _ => hasRoom_nil, fun _ => by decide⟩
  rw [show [1, 2].map cookieLine = [1].map cookieLine ++ [cookieLine 2] from rfl, hasRoom_concat, cookieLine_key,
    valuesOf_cookies]
  exact ⟨hfirst, fun _ => by decide⟩

/-- The separator in front of the fourth value is behind the room: what is left is -2 characters, and that many are
copied. -/
theorem not_merges : ¬∀ (first : RequestLine) (lines : List HeaderLine) (inputSize : Nat) (rest : Str)
    (connection : Connection), Limits (headerOf first lines) inputSize → (∀ line ∈ lines, line.Accepted) →
    Merges (buildHTTPRequestHeaderStruct ((headerOf first lines).bytes ++ rest) inputSize .free connection) lines := by
  intro hall
  have hlimits := @cookies_limits [2038, 2038, 100, 10] (by decide) (by decide) (by decide)
  have haccepted := cookies_accepted [2038, 2038, 100, 10]
  obtain ⟨n, request, connection, hok, -⟩ := hall resourceLine _ 8192 [0] ⟨[], []⟩ hlimits haccepted
  rcases build_merged hlimits haccepted [0] ⟨[], []⟩ with ⟨-, hroom⟩ | ⟨hundefined, -⟩
  · have hkey := hroom (ascii "cookie")
    rw [valuesOf_cookies] at hkey
    have hcomma : comma.length = 2 := rfl
    simp only [List.map_cons, List.map_nil, List.dropLast_cons_cons, List.dropLast_singleton,
      List.intercalate_cons_cons, List.intercalate_singleton, List.length_append, List.length_replicate, hcomma,
      HTTP_RESPONSE_OTHER_DIM] at hkey
    omega
  · rw [hundefined] at hok
    cases hok

end MyServer.RequestHeader
