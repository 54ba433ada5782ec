import MyServer.Http.LineNeighbours

/-!
# How the other lines are disturbed

For every other line there is a request of three lines, a length in front of it and one line behind, in which
something is lost, added or read elsewhere.
-/

open MyServer.HeaderLines
open MyServer.ResponseHeader (HTTP_RESPONSE_OTHER_DIM)

namespace MyServer.RequestHeader

/-! ## The lines around it -/

def indented : Str := ch ' ' :: List.replicate 59 (ch 'x')

/-- The names of the line behind. -/
def names : List Str := [indented, letters, nines, less]

/-- The values of the length in front. -/
def lengths : List Str := [ascii "5", ascii "7"]

theorem name_facts : ∀ name ∈ names, OneLine name ∧ ch ':' ∉ name ∧ name.length = 60 := by
  unfold OneLine
  decide +kernel

def behindLine (name : Str) (h : name ∈ names) : HeaderLine where
  name := name
  blanks := 0
  value := []
  name_one := (name_facts name h).1
  name_colon := (name_facts name h).2.1
  value_one := nofun
  value_trimmed := nofun

/-- What stands behind the line. -/
def behind (name : Str) : Str := name ++ ch ':' :: (crlf ++ crlf)

/-- The key that a line is stored under. -/
def keyOf (name : Str) : Str := (name.take 95).map toLower

/-- The two other lines have given what they give. -/
def Clean (length name : Str) : Parsed → Prop
  | .undefined => False
  | .ok _ request _ =>
    request.contentLength = length ∧ request.other = fun n => if n = keyOf name then some [] else none
  | .error _ _ => True
  | .incomplete => True

def SameOwn : Parsed → Parsed → Prop
  | .ok _ request connection, .ok _ request' connection' => ownOf request connection = ownOf request' connection'
  | _, _ => True

/-- The loop at the line, with one line behind it. -/
def loopAt (before text name : Str) (fuel : Nat) (request : HttpRequestHeader) (connection : Connection) : Parsed :=
  resume (before ++ (text ++ crlf ++ behind name)) (before ++ (text ++ crlf ++ behind name)).length
    (fuel + text.length + 2) (text ++ crlf ++ behind name) request connection

/-- A length and a line or two give the line away. -/
def Spoils (text : Str) : Prop :=
  ∃ length ∈ lengths, ∃ a ∈ names, ∃ b ∈ names, ∀ before fuel request connection,
    request.contentLength = length → (request.other = fun _ => none) →
      ¬ (Clean length a (loopAt before text a fuel request connection) ∧
        Clean length b (loopAt before text b fuel request connection) ∧
        SameOwn (loopAt before text a fuel request connection) (loopAt before text b fuel request connection))

theorem Spoils.of_name {text length name : Str} (hlength : length ∈ lengths) (hname : name ∈ names)
    (h : ∀ before fuel request connection, request.contentLength = length → (request.other = fun _ => none) →
      ¬ Clean length name (loopAt before text name fuel request connection)) : Spoils text :=
  ⟨length, hlength, name, hname, name, hname, fun before fuel request connection hrequest hother hclean =>
    h before fuel request connection hrequest hother hclean.1⟩

/-! ## Lines that are stored -/

/-- With a value under one more key. -/
def HttpRequestHeader.stored (request : HttpRequestHeader) (key value : Str) : HttpRequestHeader :=
  { request with other := fun n => if n = key then some value else request.other n }

/-- It is none of the lines that are read in their own way. -/
def Unknown (command : Str) : Prop :=
  caseEq command (ascii "Authorization") = false ∧ caseEq command (ascii "Content-length") = false ∧
    caseEq command (ascii "Range") = false

section

variable {input before name value more : Str} {maxTotchars fuel blanks : Nat} {request : HttpRequestHeader}
  {connection : Connection}

theorem resume_stored (hzero : (0 : Byte) ∉ name) (hcolon : ch ':' ∉ name) (hfirst : name.head? ≠ some (ch '\r'))
    (hunknown : Unknown (name.take 95)) (hone : OneLine value) (htrimmed : value.head? ≠ some (ch ' '))
    (hnew : request.other (keyOf name) = none)
    (hinput : input = before ++ (name ++ ch ':' :: (List.replicate blanks (ch ' ') ++ (value ++ crlf ++ more))))
    (hmax : (before ++ (name ++ value)).length < maxTotchars) :
    resume input maxTotchars (fuel + 1)
        (name ++ ch ':' :: (List.replicate blanks (ch ' ') ++ (value ++ crlf ++ more))) request connection =
      resume input maxTotchars fuel more (request.stored (keyOf name) (value.take HTTP_RESPONSE_OTHER_DIM))
        connection := by
  simp only [List.length_append] at hmax
  have hvalue : value.length < maxTotchars := by omega
  have htake : ∀ n, (value ++ crlf ++ more).take (min n value.length) = value.take n := by
    intro n
    rw [Nat.min_comm, ← List.take_take, List.take_take, Nat.min_comm, ← List.take_take, List.append_assoc,
      List.take_left]
  rw [resume_turn hzero hcolon hfirst htrimmed hinput (by rw [List.length_append]; omega)]
  unfold readLine
  rw [hunknown.1, hunknown.2.1, hunknown.2.2]
  simp only [Bool.false_eq_true, if_false, getEndLine_value hone, if_pos hvalue]
  unfold HttpRequestHeader.store
  have hnew' : request.other ((name.take 95).map toLower) = none := hnew
  simp only [hnew', htake]
  unfold goOn
  dsimp only
  rw [drop_value]
  rfl

/-- The last line of all. -/
theorem resume_last (hzero : (0 : Byte) ∉ name) (hcolon : ch ':' ∉ name) (hfirst : name.head? ≠ some (ch '\r'))
    (hunknown : Unknown (name.take 95)) (hnew : request.other (keyOf name) = none)
    (hinput : input = before ++ behind name) (hmax : (before ++ name).length < maxTotchars) :
    resume input maxTotchars (fuel + 1) (behind name) request connection =
      .ok maxTotchars (request.stored (keyOf name) []) connection := by
  have hstored := @resume_stored input before name [] crlf maxTotchars fuel 0 request connection hzero hcolon hfirst
    hunknown nofun nofun hnew hinput (by rwa [List.append_nil])
  exact hstored.trans (resume_end [])

theorem unknown_of_length (hzero : (0 : Byte) ∉ name) (hlong : 14 < name.length) : Unknown (name.take 95) := by
  have hno : ∀ other : Str, (0 : Byte) ∉ other → other.length ≤ 14 → caseEq (name.take 95) other = false := by
    intro other hother hshort
    refine Bool.eq_false_iff.mpr fun h => ?_
    have hlength := length_of_caseEq (fun hmem => hzero (List.mem_of_mem_take hmem)) hother h
    rw [List.length_take] at hlength
    omega
  exact ⟨hno _ (by decide) (by decide), hno _ (by decide) (by decide), hno _ (by decide) (by decide)⟩

theorem length_keyOf (name : Str) : (keyOf name).length = min 95 name.length := by
  rw [keyOf, List.length_map, List.length_take]

/-- A key that is not one of the two lines'. -/
theorem not_clean_of_key {length name key : Str} {n : Nat} {other : Str → Option Str}
    (hkey : key ≠ keyOf name) (hsome : other key ≠ none) (hrequest : request.other = other) :
    ¬ Clean length name (.ok n request connection) := by
  rintro ⟨-, h⟩
  have hnone := congrFun h key
  rw [hrequest] at hnone
  exact hsome (hnone.trans (if_neg hkey))

/-- A line of another name than the one behind. -/
theorem not_clean_last {length behindName : Str} (hname : behindName ∈ names) (hzero : (0 : Byte) ∉ name)
    (hcolon : ch ':' ∉ name) (hfirst : name.head? ≠ some (ch '\r')) (hlong : 14 < name.length)
    (hne : name.length ≠ 60) (hother : request.other = fun _ => none) (hinput : input = before ++ behind name)
    (hmax : (before ++ name).length < maxTotchars) :
    ¬ Clean length behindName (resume input maxTotchars (fuel + 1) (behind name) request connection) := by
  rw [resume_last hzero hcolon hfirst (unknown_of_length hzero hlong) (by rw [hother]) hinput hmax]
  have hkey : keyOf name ≠ keyOf behindName := by
    intro heq
    have hlength := congrArg List.length heq
    rw [length_keyOf, length_keyOf, (name_facts _ hname).2.2] at hlength
    omega
  have hsome : (request.stored (keyOf name) []).other (keyOf name) = some [] := if_pos rfl
  exact not_clean_of_key hkey (by rw [hsome]; exact nofun) rfl

end

/-! ## The lines of credentials -/

section

variable {line : HeaderLine}

theorem loopAt_turn (h : caseEq line.command (ascii "Authorization") = true) {auth name : Str}
    (hread : ∀ digest, readReqAuthLine (line.value ++ crlf ++ behind name) digest 13 = .ok ⟨auth, [], [], digest⟩ 13)
    (before : Str) (fuel : Nat) (request : HttpRequestHeader) (connection : Connection) :
    loopAt before line.text name fuel request connection =
      resume (before ++ (line.text ++ crlf ++ behind name)) (before ++ (line.text ++ crlf ++ behind name)).length
        (fuel + line.text.length + 1) ((line.value ++ crlf ++ behind name).drop (13 + 2)) { request with auth }
        ⟨[], []⟩ := by
  have hmax : (before ++ line.text).length < (before ++ (line.text ++ crlf ++ behind name)).length := by
    have hcrlf : crlf.length = 2 := rfl
    simp only [List.length_append, hcrlf]
    omega
  unfold loopAt
  rw [turn_authorization h rfl hmax, hread]

/-- What is left of the texts, when the loop comes back into them. -/
theorem text_front (line : HeaderLine) :
    ∃ front : Str, line.text = front ++ line.value :=
  ⟨line.name ++ ch ':' :: List.replicate line.blanks (ch ' '), by simp [HeaderLine.text]⟩

/-- The loop comes back at a name that no line has. -/
theorem spoils_of_name (h : caseEq line.command (ascii "Authorization") = true) {auth name name' : Str}
    (hname : name ∈ names)
    (hread : ∀ digest, readReqAuthLine (line.value ++ crlf ++ behind name) digest 13 = .ok ⟨auth, [], [], digest⟩ 13)
    (hdrop : (line.value ++ crlf ++ behind name).drop (13 + 2) = behind name')
    (hzero : (0 : Byte) ∉ name') (hcolon : ch ':' ∉ name') (hfirst : name'.head? ≠ some (ch '\r'))
    (hlong : 14 < name'.length) (hne : name'.length ≠ 60) : Spoils line.text := by
  refine Spoils.of_name List.mem_cons_self hname fun before fuel request connection hlength hother => ?_
  obtain ⟨front, hfront⟩ := text_front line
  have hinput : before ++ (line.text ++ crlf ++ behind name) =
      before ++ front ++ (line.value ++ crlf ++ behind name).take (13 + 2) ++ behind name' := by
    rw [← hdrop, List.append_assoc, List.append_assoc, List.take_append_drop, hfront]
    simp only [List.append_assoc]
  rw [loopAt_turn h hread, hdrop, hinput]
  refine not_clean_last hname hzero hcolon hfirst hlong hne hother rfl ?_
  simp only [List.length_append, behind, List.length_cons]
  omega

/-- In the next line, or at the end of its own. -/
theorem spoils_short (h : caseEq line.command (ascii "Authorization") = true) {auth : Str}
    (hread : ∀ digest more, readReqAuthLine (line.value ++ crlf ++ ch ' ' :: more) digest 13 =
      .ok ⟨auth, [], [], digest⟩ 13) (hshort : line.value.length < 13) : Spoils line.text := by
  have hfacts := name_facts indented (by decide)
  have hsub : ∀ b ∈ indented.drop (13 - line.value.length), b ∈ indented := fun b hb => List.mem_of_mem_drop hb
  refine @spoils_of_name line h auth indented (indented.drop (13 - line.value.length)) (by decide)
    (fun digest => hread digest _) ?_ ?_ ?_ ?_ ?_ ?_
  · have hcrlf : (line.value ++ crlf).length = line.value.length + 2 := List.length_append
    have hplace : 13 + 2 = (line.value ++ crlf).length + (13 - line.value.length) := by omega
    rw [hplace, List.drop_length_add_append]
    unfold behind
    rw [List.drop_append_of_le_length]
    rw [hfacts.2.2]
    omega
  · exact fun hmem => hfacts.1.line.2 (hsub _ hmem)
  · exact fun hmem => hfacts.2.1 (hsub _ hmem)
  · exact fun hhead => (hfacts.1 _ (hsub _ (List.mem_of_head? hhead))).1 rfl
  · rw [List.length_drop, hfacts.2.2]
    omega
  · rw [List.length_drop, hfacts.2.2]
    omega

/-- Behind its own first line end character, or where no colon comes before the end of the line. -/
theorem spoils_uncolon (h : caseEq line.command (ascii "Authorization") = true) {auth : Str}
    (hread : ∀ digest more, readReqAuthLine (line.value ++ crlf ++ more) digest 13 = .ok ⟨auth, [], [], digest⟩ 13)
    (hlong : 14 ≤ line.value.length) (hne : line.value.length ≠ 15) (hcolon : ch ':' ∉ line.value.drop 15) :
    Spoils line.text := by
  have hfacts := name_facts letters (by decide)
  have hdrop : (line.value ++ crlf).drop 15 ++ behind letters = behind ((line.value ++ crlf).drop 15 ++ letters) := by
    simp [behind]
  have hlength : ((line.value ++ crlf).drop 15).length = line.value.length - 13 := by
    rw [List.length_drop, List.length_append]
    change line.value.length + 2 - 15 = _
    omega
  have hmem : ∀ b ∈ (line.value ++ crlf).drop 15, b ∈ line.value.drop 15 ∨ b ∈ crlf := by
    intro b hb
    rw [List.drop_append] at hb
    exact (List.mem_append.mp hb).imp_right List.mem_of_mem_drop
  refine @spoils_of_name line h auth letters ((line.value ++ crlf).drop 15 ++ letters) (by decide)
    (fun digest => hread digest _) ?_ ?_ ?_ ?_ ?_ ?_
  · rw [List.drop_append_of_le_length, hdrop]
    rw [List.length_append]
    change 15 ≤ line.value.length + 2
    omega
  · intro hzero
    rcases List.mem_append.mp hzero with hzero | hzero
    · rcases hmem _ hzero with hzero | hzero
      · exact line.value_one.line.2 (List.mem_of_mem_drop hzero)
      · exact absurd hzero (by decide)
    · exact hfacts.1.line.2 hzero
  · intro hc
    rcases List.mem_append.mp hc with hc | hc
    · rcases hmem _ hc with hc | hc
      · exact hcolon hc
      · exact absurd hc (by decide)
    · exact hfacts.2.1 hc
  · by_cases heq : line.value.length = 14
    · have htail : (line.value ++ crlf).drop 15 = [LF] := by
        have hplace : 15 = line.value.length + 1 := by omega
        rw [hplace, List.drop_length_add_append]
        rfl
      rw [htail]
      decide
    · intro hhead
      obtain ⟨c, rest, hcons⟩ : ∃ c rest, line.value.drop 15 = c :: rest :=
        List.exists_cons_of_ne_nil (fun hnil => by
          have hzero := congrArg List.length hnil
          rw [List.length_drop, List.length_nil] at hzero
          omega)
      rw [List.drop_append_of_le_length (by omega), hcons] at hhead
      have hc : c ∈ line.value := List.mem_of_mem_drop (hcons ▸ List.mem_cons_self)
      exact (line.value_one c hc).1 (Option.some.inj hhead)
  · rw [List.length_append, hlength, hfacts.2.2]
    omega
  · rw [List.length_append, hlength, hfacts.2.2]
    omega

/-- Where the loop comes back at the end of the line, it takes that for the end of the header. -/
theorem spoils_end (h : caseEq line.command (ascii "Authorization") = true) {auth : Str}
    (hread : ∀ digest more, readReqAuthLine (line.value ++ crlf ++ more) digest 13 = .ok ⟨auth, [], [], digest⟩ 13)
    (hlength : line.value.length = 15) : Spoils line.text := by
  have hletters : letters ∈ names := by decide
  refine Spoils.of_name List.mem_cons_self hletters fun before fuel request connection _ hother => ?_
  have hdrop : (line.value ++ crlf ++ behind letters).drop (13 + 2) = crlf ++ behind letters := by
    have hplace : 13 + 2 = line.value.length := hlength.symm
    rw [List.append_assoc, hplace, List.drop_left]
  rw [loopAt_turn h (fun digest => hread digest _), hdrop, resume_end]
  rintro ⟨-, hclean⟩
  have hkey := congrFun hclean (keyOf letters)
  rw [if_pos rfl] at hkey
  dsimp only at hkey
  rw [hother] at hkey
  exact absurd hkey nofun

/-! ## The lines that are found in it -/

/-- What is found is a line of its own. -/
theorem spoils_of_tail (h : caseEq line.command (ascii "Authorization") = true) {auth : Str}
    (hread : ∀ digest more, readReqAuthLine (line.value ++ crlf ++ more) digest 13 = .ok ⟨auth, [], [], digest⟩ 13)
    (hlong : 15 ≤ line.value.length) (htail : Spoils (line.value.drop 15)) : Spoils line.text := by
  obtain ⟨length, hlength, a, ha, b, hb, hspoils⟩ := htail
  obtain ⟨front, htext, hfront⟩ := text_split h hlong
  refine ⟨length, hlength, a, ha, b, hb, fun before fuel request connection hrequest hother => ?_⟩
  have hloop : ∀ name, loopAt before line.text name fuel request connection =
      loopAt (before ++ front) (line.value.drop 15) name (fuel + (front.length - 1)) { request with auth } ⟨[], []⟩ := by
    intro name
    have hcount : fuel + line.text.length + 1 = fuel + (front.length - 1) + (line.value.drop 15).length + 2 := by
      rw [htext, List.length_append]
      omega
    have hinput : before ++ (line.text ++ crlf ++ behind name) =
        before ++ front ++ (line.value.drop 15 ++ crlf ++ behind name) := by
      rw [htext]
      simp only [List.append_assoc]
    rw [loopAt_turn h (fun digest => hread digest _), drop_credentials hlong, hcount, hinput]
    rfl
  rw [hloop, hloop]
  exact hspoils _ _ _ _ hrequest hother

/-- The loop behind an ordinary line, where the line behind is still to come. -/
theorem loopAt_ordinary (hordinary : line.Ordinary) {name : Str} (hname : name ∈ names) (before : Str) (fuel : Nat)
    {request given : HttpRequestHeader} {connection : Connection}
    (hgiven : line.given request connection = .ok given connection line.value.length)
    (hnew : given.other (keyOf name) = none) :
    ∃ n, loopAt before line.text name fuel request connection =
      .ok n (given.stored (keyOf name) []) connection := by
  obtain ⟨hone, hcolon, hlength⟩ := name_facts name hname
  have hcrlf : crlf.length = 2 := rfl
  have hmax : (before ++ line.text).length < (before ++ (line.text ++ crlf ++ behind name)).length := by
    simp only [List.length_append, hcrlf]
    omega
  have hvalue : line.value.length < (before ++ (line.text ++ crlf ++ behind name)).length := by
    simp only [List.length_append, hcrlf, length_text]
    omega
  have hfirst : name.head? ≠ some (ch '\r') := fun h => (hone _ (List.mem_of_head? h)).1 rfl
  have hcount : fuel + line.text.length + 2 = fuel + line.text.length + 1 + 1 := rfl
  refine ⟨(before ++ (line.text ++ crlf ++ behind name)).length, ?_⟩
  unfold loopAt
  rw [hcount, resume_line line rfl hmax, readLine_ordinary hordinary hvalue, hgiven]
  unfold goOn
  dsimp only
  rw [drop_value]
  refine @resume_last _ (before ++ (line.text ++ crlf)) name _ _ given connection hone.line.2 hcolon hfirst
    (unknown_of_length hone.line.2 (by omega)) hnew (by simp only [List.append_assoc]) ?_
  simp only [List.length_append, behind, List.length_cons]
  omega

theorem spoils_length (h : caseEq line.command (ascii "Content-length") = true)
    (hshort : line.value.length < HTTP_REQUEST_CONTENT_LENGTH_DIM) : Spoils line.text := by
  obtain ⟨length, hlength, hne⟩ : ∃ length ∈ lengths, line.value ≠ length := by
    by_cases hfive : line.value = ascii "5"
    · exact ⟨ascii "7", by decide, by rw [hfive]; decide⟩
    · exact ⟨ascii "5", by decide, hfive⟩
  have hletters : letters ∈ names := by decide
  refine Spoils.of_name hlength hletters fun before fuel request connection _ hother => ?_
  have hgiven : line.given request connection =
      .ok { request with contentLength := line.value } connection line.value.length := by
    unfold HeaderLine.given
    rw [if_pos h, if_pos hshort]
  obtain ⟨n, hloop⟩ := loopAt_ordinary (ordinary_of_length h) hletters before fuel hgiven
    (congrFun hother (keyOf letters))
  rw [hloop]
  exact fun hclean => hne hclean.1

theorem spoils_unknown (hunknown : Unknown line.command) : Spoils line.text := by
  obtain ⟨name, hname, hne⟩ : ∃ name ∈ names, keyOf line.name ≠ keyOf name := by
    by_cases hkey : keyOf line.name = keyOf letters
    · exact ⟨nines, by decide, by rw [hkey]; decide⟩
    · exact ⟨letters, by decide, hkey⟩
  refine Spoils.of_name List.mem_cons_self hname fun before fuel request connection _ hother => ?_
  have hold : request.other (line.command.map toLower) = none := congrFun hother _
  have hgiven : line.given request connection =
      .ok (request.stored (keyOf line.name) (line.value.take (min HTTP_RESPONSE_OTHER_DIM line.value.length)))
        connection line.value.length := by
    unfold HeaderLine.given HttpRequestHeader.store
    rw [hunknown.2.1]
    simp only [Bool.false_eq_true, if_false, hold]
    rfl
  have hnew : (request.stored (keyOf line.name)
      (line.value.take (min HTTP_RESPONSE_OTHER_DIM line.value.length))).other (keyOf name) = none :=
    (if_neg hne.symm).trans (congrFun hother _)
  obtain ⟨n, hloop⟩ := loopAt_ordinary ⟨hunknown.1, hunknown.2.2⟩ hname before fuel hgiven hnew
  rw [hloop]
  refine not_clean_of_key hne ?_ rfl
  exact fun hnone => absurd (((if_neg hne).trans (if_pos rfl)).symm.trans hnone) nofun

theorem spoils_range (h : caseEq line.command (ascii "Range") = true) (hout : ¬ RangeInside line.value) :
    Spoils line.text := by
  obtain ⟨-, hdiffers⟩ := range_outside line.value_one hout
  obtain ⟨a, ha, b, hb, hdiffers⟩ : ∃ a ∈ names, ∃ b ∈ names, Differs line.value a b := by
    rcases hdiffers with hd | hd
    · exact ⟨letters, by decide, nines, by decide, hd⟩
    · exact ⟨nines, by decide, less, by decide, hd⟩
  refine ⟨ascii "5", by decide, a, ha, b, hb, fun before fuel request connection _ hother => ?_⟩
  -- Either way the loop gets to the line behind, with the range that was read.
  have hloop : ∀ name ∈ names, ∀ type range,
      readReqRangeLine (line.value ++ crlf ++ behind name) = .ok (type, range, line.value.length) →
      ∃ n r, loopAt before line.text name fuel request connection = .ok n r connection ∧ r.range = range := by
    intro name hname type range hread
    obtain ⟨hone, hcolon, hlength⟩ := name_facts name hname
    have hcrlf : crlf.length = 2 := rfl
    have hmax : (before ++ line.text).length < (before ++ (line.text ++ crlf ++ behind name)).length := by
      simp only [List.length_append, hcrlf]
      omega
    have hfirst : name.head? ≠ some (ch '\r') := fun h => (hone _ (List.mem_of_head? h)).1 rfl
    have hcount : fuel + line.text.length + 2 = fuel + line.text.length + 1 + 1 := rfl
    refine ⟨(before ++ (line.text ++ crlf ++ behind name)).length,
      HttpRequestHeader.stored { request with rangeType := type, range } (keyOf name) [], ?_, rfl⟩
    · unfold loopAt
      rw [hcount, turn_range h rfl hmax, hread]
      dsimp only
      rw [drop_value]
      refine @resume_last _ (before ++ (line.text ++ crlf)) name _ _
        { request with rangeType := type, range } connection hone.line.2 hcolon hfirst
        (unknown_of_length hone.line.2 (by omega)) (congrFun hother _) (by simp only [List.append_assoc]) ?_
      simp only [List.length_append, behind, List.length_cons]
      omega
  obtain ⟨type, range, hread⟩ := hdiffers.first (ch ':' :: (crlf ++ crlf))
  obtain ⟨type', range', hread'⟩ := hdiffers.second (ch ':' :: (crlf ++ crlf))
  obtain ⟨n, r, hout₁, hr⟩ := hloop a ha type range hread
  obtain ⟨n', r', hout₂, hr'⟩ := hloop b hb type' range' hread'
  rintro ⟨-, -, hsame⟩
  rw [hout₁, hout₂] at hsame
  have hrange := congrArg Own.range hsame
  exact hdiffers.apart _ _ _ _ hread hread' (hr.symm.trans (hrange.trans hr'))

theorem spoils_authorization (h : caseEq line.command (ascii "Authorization") = true)
    (hout : ¬ AuthInside line.value) : Spoils line.text := by
  induction hn : line.value.length using Nat.strong_induction_on generalizing line with
  | _ n ih =>
  subst hn
  rw [AuthInside] at hout
  cases hscheme : getCharInString (ascii " ") line.value HTTP_REQUEST_AUTH_DIM with
  | none =>
    rw [hscheme] at hout
    have hshort : line.value.length < 13 := not_le.mp hout
    exact spoils_short h (fun digest more =>
      auth_short line.value_one line.value_trimmed hscheme hshort more digest 13) hshort
  | some tokenOff =>
    rw [hscheme] at hout
    dsimp only at hout
    by_cases hbasic : line.value.take tokenOff = ascii "Basic"
    · rw [if_pos hbasic] at hout
      have hundefined := (auth_basic line.value_one line.value_trimmed hscheme hbasic).2 hout
      have hletters : letters ∈ names := by decide
      refine Spoils.of_name List.mem_cons_self hletters fun before fuel request connection _ _ => ?_
      have hcrlf : crlf.length = 2 := rfl
      have hmax : (before ++ line.text).length < (before ++ (line.text ++ crlf ++ behind letters)).length := by
        simp only [List.length_append, hcrlf]
        omega
      unfold loopAt
      rw [turn_authorization h rfl hmax, hundefined]
      exact id
    · by_cases hdigest : line.value.take tokenOff = ascii "Digest"
      · rw [if_neg hbasic, if_pos hdigest] at hout
        exact absurd trivial hout
      · rw [if_neg hbasic, if_neg hdigest] at hout
        have hread : ∀ digest more, readReqAuthLine (line.value ++ crlf ++ more) digest 13 =
            .ok ⟨line.value.take tokenOff, [], [], digest⟩ 13 := by
          intro digest more
          rw [readAuth_eq line.value_trimmed hscheme, if_neg hbasic, if_neg hdigest]
        by_cases hlong : 16 ≤ line.value.length
        · rw [dif_pos hlong] at hout
          by_cases hcolon : ch ':' ∈ line.value.drop 15
          · have hone : OneLine (line.value.drop 15) := fun b hb => line.value_one b (List.mem_of_mem_drop hb)
            have hle := (tailValue_suffix (line.value.drop 15)).length_le
            rw [List.length_drop] at hle
            have htail : Spoils (tailLine (line.value.drop 15) hone).text := by
              have hrest := fun hinside => hout ⟨hcolon, hinside⟩
              split_ifs at hrest with hauth hlength hrange
              · exact ih _ (lt_of_le_of_lt hle (by omega)) hauth hrest rfl
              · exact spoils_length hlength (not_le.mp hrest)
              · exact spoils_range hrange hrest
              · exact spoils_unknown ⟨Bool.eq_false_iff.mpr hauth, Bool.eq_false_iff.mpr hlength,
                  Bool.eq_false_iff.mpr hrange⟩
            rw [tailLine_text hone hcolon] at htail
            exact spoils_of_tail h hread (by omega) htail
          · exact spoils_uncolon h hread (by omega) (by omega) hcolon
        · rw [dif_neg hlong] at hout
          rcases Nat.lt_trichotomy line.value.length 14 with hlt | heq | hgt
          · exact spoils_short h (fun digest more => hread digest _) (by omega)
          · refine spoils_uncolon h hread heq.ge (by omega) ?_
            rw [List.drop_of_length_le (by omega)]
            exact List.not_mem_nil
          · exact spoils_end h hread (by omega)

end

/-! ## Both ways -/

theorem SpecialLine.command_eq (line : SpecialLine) : caseEq line.command line.special.name = true := by
  have hnames : (0 : Byte) ∉ line.special.name ∧ line.special.name.length ≤ 95 := by
    cases line.special <;> decide
  have hlength := length_of_caseEq line.name_one.line.2 hnames.1 line.named
  unfold HeaderLine.command
  rw [List.take_of_length_le (by omega)]
  exact line.named

/-- A length of five or seven before the line. -/
def lengthLine (value : Str) (h : value ∈ lengths) : HeaderLine where
  name := ascii "Content-length"
  blanks := 1
  value := value
  name_one := by decide
  name_colon := by decide
  value_one := by
    have hall : ∀ value ∈ lengths, OneLine value := by decide
    exact hall value h
  value_trimmed := by
    have hall : ∀ value ∈ lengths, value.head? ≠ some (ch ' ') := by decide
    exact hall value h

section

variable {first : RequestLine} {before after : List HeaderLine} {inputSize : Nat}

theorem linesText_append (a b : List HeaderLine) : linesText (a ++ b) = linesText a ++ linesText b :=
  List.flatMap_append

/-- A header is still one without one of its lines. -/
theorem limits_without {line : HeaderLine} (h : Limits (headerOf first (before ++ line :: after)) inputSize) :
    Limits (headerOf first (before ++ after)) inputSize := by
  have hlength : (headerOf first (before ++ after)).bytes.length ≤
      (headerOf first (before ++ line :: after)).bytes.length := by
    have hcons : linesText (line :: after) = line.text ++ crlf ++ linesText after := List.flatMap_cons
    rw [headerOf_bytes, headerOf_bytes, linesText_append, linesText_append, hcons]
    simp only [List.length_append]
    omega
  refine ⟨⟨h.lines.first, fun l hl => h.lines.fields l ?_, ?_⟩, hlength.trans_lt h.length, hlength.trans h.size⟩
  · change l ∈ (before ++ after).map HeaderLine.text at hl
    change l ∈ (before ++ line :: after).map HeaderLine.text
    rw [List.map_append, List.mem_append] at hl ⊢
    exact hl.imp_right fun hmem => List.mem_cons_of_mem _ hmem
  · have hnumber := h.lines.number
    change ((before ++ line :: after).map HeaderLine.text).length ≤ 25 at hnumber
    change ((before ++ after).map HeaderLine.text).length ≤ 25
    simp only [List.length_map, List.length_append, List.length_cons] at hnumber ⊢
    omega

/-- The loop at one of the lines, behind ordinary ones. -/
theorem build_upTo {line : HeaderLine} (hlimits : Limits (headerOf first (before ++ line :: after)) inputSize)
    (hordinary : ∀ l ∈ before, l.Ordinary) (rest : Str) (connection : Connection) {fuel : Nat}
    (hfuel : ((headerOf first (before ++ line :: after)).bytes ++ rest).length = fuel + before.length) :
    buildHTTPRequestHeaderStruct ((headerOf first (before ++ line :: after)).bytes ++ rest) inputSize .free
        connection =
      (runLines before (HttpRequestHeader.free.requested first) connection).andThen
        (resume ((headerOf first (before ++ line :: after)).bytes ++ rest)
          (headerOf first (before ++ line :: after)).bytes.length fuel
          (line.text ++ crlf ++ (linesText after ++ (crlf ++ rest)))) := by
  have hcons : linesText (line :: after) = line.text ++ crlf ++ linesText after := List.flatMap_cons
  have hsplit : linesText (before ++ line :: after) ++ (crlf ++ rest) =
      linesText before ++ (line.text ++ crlf ++ (linesText after ++ (crlf ++ rest))) := by
    rw [linesText_append, hcons]
    simp only [List.append_assoc]
  have hshape : (headerOf first (before ++ line :: after)).bytes ++ rest =
      first.line ++ crlf ++ (linesText before ++ (line.text ++ crlf ++ (linesText after ++ (crlf ++ rest)))) := by
    rw [headerOf_bytes, ← hsplit]
    simp only [List.append_assoc]
  have hmax : (first.line ++ crlf ++ linesText before).length ≤
      (headerOf first (before ++ line :: after)).bytes.length := by
    rw [headerOf_bytes, linesText_append]
    simp only [List.length_append]
    omega
  rw [build_lines hlimits, hsplit, hfuel, resume_run hordinary hshape hmax]

/-- A line that is passed leaves its neighbours alone. -/
theorem undisturbed_of_passes {line : SpecialLine} (hpasses : Passes line.text) : Undisturbed line := by
  obtain ⟨own, hpasses⟩ := hpasses
  refine ⟨fun connection => own (ownOf .free connection),
    fun first before after rest inputSize connection hordinary hlimits => ?_⟩
  obtain ⟨hbefore, hafter⟩ := List.forall_mem_append.mp hordinary
  have hcons : linesText (line.toHeaderLine :: after) = line.text ++ crlf ++ linesText after := List.flatMap_cons
  have hinput : (headerOf first (before ++ line.toHeaderLine :: after)).bytes ++ rest =
      first.line ++ crlf ++ linesText before ++ (line.text ++ crlf ++ (linesText after ++ (crlf ++ rest))) := by
    rw [headerOf_bytes, linesText_append, hcons]
    simp only [List.append_assoc]
  have hlength := congrArg List.length hinput
  have hcrlf : crlf.length = 2 := rfl
  simp only [List.length_append, hcrlf] at hlength
  have hmany := length_le_linesText before
  have hmany' := length_le_linesText after
  obtain ⟨fuel, hfuel⟩ : ∃ fuel, ((headerOf first (before ++ line.toHeaderLine :: after)).bytes ++ rest).length =
      fuel + after.length + line.text.length + before.length :=
    ⟨((headerOf first (before ++ line.toHeaderLine :: after)).bytes ++ rest).length -
      (after.length + line.text.length + before.length), by simp only [List.length_append]; omega⟩
  have hwithout := build_ordinary (limits_without hlimits) hordinary rest connection
  rw [runLines_append] at hwithout
  dsimp only
  rw [build_upTo hlimits hbefore rest connection hfuel, hwithout]
  cases hrun : runLines before (HttpRequestHeader.free.requested first) connection with
  | undefined => rfl
  | error code refused => trivial
  | ok request connection₁ tokenOff =>
    have hown : ownOf request connection₁ = ownOf .free connection :=
      (@runLines_own (HttpRequestHeader.free.requested first) connection _ _ _ _ hrun).trans rfl
    have hmax : (first.line ++ crlf ++ linesText before ++ line.text).length <
        (headerOf first (before ++ line.toHeaderLine :: after)).bytes.length := by
      rw [headerOf_bytes, linesText_append, hcons]
      simp only [List.length_append, hcrlf]
      omega
    dsimp only [Line.andThen]
    rcases hpasses _ _ _ _ (fuel + after.length) request connection₁ hinput hmax with ⟨code, refused, hrefused⟩ |
      ⟨left, hpassed⟩
    · rw [hrefused]
      trivial
    · have hcount : fuel + after.length + left = fuel + left + after.length := by omega
      have hshape : (headerOf first (before ++ line.toHeaderLine :: after)).bytes ++ rest =
          first.line ++ crlf ++ linesText before ++ (line.text ++ crlf) ++ (linesText after ++ (crlf ++ rest)) := by
        rw [hinput]
        simp only [List.append_assoc]
      have hmax' : (first.line ++ crlf ++ linesText before ++ (line.text ++ crlf) ++ linesText after).length ≤
          (headerOf first (before ++ line.toHeaderLine :: after)).bytes.length := by
        rw [headerOf_bytes, linesText_append, hcons]
        simp only [List.length_append]
        omega
      rw [hpassed, hown, hcount, resume_run hafter hshape hmax', runLines_withOwn]
      cases runLines after request connection₁ with
      | undefined => rfl
      | error code refused => trivial
      | ok without connection₂ tokenOff' =>
        dsimp only [Line.withOwn, Line.andThen]
        rw [resume_end]
        exact ⟨_, without, connection₂, rfl, ⟨rfl, rfl, rfl, rfl, rfl, rfl, rfl⟩, rfl⟩

end

section

variable {length name : Str} {line : SpecialLine}

/-- Three lines. -/
def threeLines (hlength : length ∈ lengths) (hname : name ∈ names) (line : SpecialLine) : List HeaderLine :=
  [lengthLine length hlength] ++ line.toHeaderLine :: [behindLine name hname]

theorem three_limits (hlength : length ∈ lengths) (hname : name ∈ names) (hshort : line.text.length ≤ 2046) :
    Limits (headerOf resourceLine (threeLines hlength hname line)) 8192 := by
  have hbehind : (behindLine name hname).text.length = 61 := by
    rw [length_text]
    change name.length + 1 + 0 + 0 = 61
    rw [(name_facts name hname).2.2]
  have hfront : (lengthLine length hlength).text.length = 17 := by
    have hall : ∀ value ∈ lengths, value.length = 1 := by decide
    rw [length_text]
    change 14 + 1 + 1 + length.length = 17
    rw [hall length hlength]
  have hbytes : (headerOf resourceLine (threeLines hlength hname line)).bytes.length =
      resourceLine.line.length + 2 + (17 + 2 + (line.text.length + 2) + (61 + 2) + 2) := by
    have hcrlf : crlf.length = 2 := rfl
    have hlines : linesText (threeLines hlength hname line) =
        (lengthLine length hlength).text ++ crlf ++ (line.text ++ crlf ++ ((behindLine name hname).text ++ crlf)) := by
      simp [linesText, threeLines]
    rw [headerOf_bytes, hlines]
    simp only [List.length_append, hcrlf, hbehind, hfront]
    omega
  have hfirst : resourceLine.line.length = 27 := by decide
  have hthree : 3 ≤ 25 := by decide
  refine ⟨⟨?_, fun l hl => ?_, hthree⟩, by omega, by omega⟩
  · change resourceLine.line.length + 1 ≤ 2048
    omega
  · have hmem : l = (lengthLine length hlength).text ∨ l = line.text ∨ l = (behindLine name hname).text := by
      simpa [headerOf, threeLines] using hl
    rcases hmem with rfl | rfl | rfl <;> omega

theorem ordinary_behind (hname : name ∈ names) : (behindLine name hname).Ordinary := by
  obtain ⟨hone, -, hlength⟩ := name_facts name hname
  have hunknown := unknown_of_length hone.line.2 (by omega)
  exact ⟨hunknown.1, hunknown.2.2⟩

theorem ordinary_front (hlength : length ∈ lengths) : (lengthLine length hlength).Ordinary := by
  refine ordinary_of_length ?_
  change caseEq (ascii "Content-length") (ascii "Content-length") = true
  decide

/-- What the two ordinary lines give. -/
theorem run_two (hlength : length ∈ lengths) (hname : name ∈ names) (connection : Connection) :
    runLines [lengthLine length hlength] (HttpRequestHeader.free.requested resourceLine) connection =
        .ok { HttpRequestHeader.free.requested resourceLine with contentLength := length } connection 0 ∧
      runLines [behindLine name hname]
          { HttpRequestHeader.free.requested resourceLine with contentLength := length } connection =
        .ok (HttpRequestHeader.stored
          { HttpRequestHeader.free.requested resourceLine with contentLength := length } (keyOf name) [])
          connection 0 := by
  obtain ⟨hone, -, hlong⟩ := name_facts name hname
  have hunknown := unknown_of_length hone.line.2 (by omega)
  have hshort : (lengthLine length hlength).value.length < HTTP_REQUEST_CONTENT_LENGTH_DIM := by
    have hall : ∀ value ∈ lengths, value.length < HTTP_REQUEST_CONTENT_LENGTH_DIM := by decide
    exact hall length hlength
  have hcommand : caseEq (lengthLine length hlength).command (ascii "Content-length") = true := by
    change caseEq (ascii "Content-length") (ascii "Content-length") = true
    decide
  have hother : caseEq (behindLine name hname).command (ascii "Content-length") = false := hunknown.2.1
  constructor
  · rw [runLines, HeaderLine.given, if_pos hcommand, if_pos hshort]
    rfl
  · rw [runLines, HeaderLine.given, hother]
    rfl

theorem three_loop (hlength : length ∈ lengths) (hname : name ∈ names) (hshort : line.text.length ≤ 2046) :
    buildHTTPRequestHeaderStruct ((headerOf resourceLine (threeLines hlength hname line)).bytes ++ ([] : Str)) 8192 .free
        ⟨[], []⟩ =
      loopAt (resourceLine.line ++ crlf ++ ((lengthLine length hlength).text ++ crlf)) line.text name
        (resourceLine.line.length + 85) { HttpRequestHeader.free.requested resourceLine with contentLength := length }
        ⟨[], []⟩ := by
  have hlimits := three_limits hlength hname hshort
  have hfront : (lengthLine length hlength).text.length = 17 := by
    have hall : ∀ value ∈ lengths, value.length = 1 := by decide
    rw [length_text]
    change 14 + 1 + 1 + length.length = 17
    rw [hall length hlength]
  have hbehind : linesText [behindLine name hname] ++ (crlf ++ []) = behind name := by
    simp [linesText, HeaderLine.text, behindLine, behind]
  have hinput : (headerOf resourceLine (threeLines hlength hname line)).bytes ++ ([] : Str) =
      resourceLine.line ++ crlf ++ ((lengthLine length hlength).text ++ crlf) ++ (line.text ++ crlf ++ behind name) := by
    have hlines : linesText (threeLines hlength hname line) = (lengthLine length hlength).text ++ crlf ++
        (line.text ++ crlf ++ linesText [behindLine name hname]) := by
      simp [linesText, threeLines]
    rw [headerOf_bytes, hlines, ← hbehind]
    simp only [List.append_assoc, List.append_nil]
  have hcount : ((headerOf resourceLine (threeLines hlength hname line)).bytes ++ ([] : Str)).length =
      resourceLine.line.length + 85 + line.text.length + 2 + [lengthLine length hlength].length := by
    have hcrlf : crlf.length = 2 := rfl
    rw [hinput]
    simp only [List.length_append, behind, List.length_cons, List.length_nil, hcrlf, hfront,
      (name_facts name hname).2.2]
    omega
  have hordinary : ∀ l ∈ [lengthLine length hlength], l.Ordinary := by
    intro l hl
    rw [List.mem_singleton.mp hl]
    exact ordinary_front hlength
  have hbuild := build_upTo hlimits hordinary [] ⟨[], []⟩ hcount
  rw [(run_two hlength hname ⟨[], []⟩).1] at hbuild
  unfold loopAt
  rw [← hinput, ← hbehind]
  rw [List.append_nil] at hbuild ⊢
  exact hbuild

/-- A line that leaves them alone leaves the two lines clean. -/
theorem clean_of_ok (hlength : length ∈ lengths) (hname : name ∈ names) (hshort : line.text.length ≤ 2046) :
    buildHTTPRequestHeaderStruct ((headerOf resourceLine
      ([lengthLine length hlength] ++ [behindLine name hname])).bytes ++ ([] : Str)) 8192 .free ⟨[], []⟩ =
        .ok (headerOf resourceLine ([lengthLine length hlength] ++ [behindLine name hname])).bytes.length
          (HttpRequestHeader.stored
            { HttpRequestHeader.free.requested resourceLine with contentLength := length } (keyOf name) [])
          ⟨[], []⟩ := by
  have hlimits := limits_without (three_limits hlength hname hshort)
  have hordinary : ∀ l ∈ [lengthLine length hlength] ++ [behindLine name hname], l.Ordinary := by
    intro l hl
    rcases List.mem_append.mp hl with hl | hl
    · rw [List.mem_singleton.mp hl]
      exact ordinary_front hlength
    · rw [List.mem_singleton.mp hl]
      exact ordinary_behind hname
  obtain ⟨hfront, hbehind⟩ := run_two hlength hname ⟨[], []⟩
  rw [build_ordinary hlimits hordinary, runLines_append, hfront]
  dsimp only
  rw [hbehind]
  rfl

end

theorem sameOwn_of {own : Own} {a b : Parsed} (ha : ∀ n request connection, a = .ok n request connection →
    ownOf request connection = own) (hb : ∀ n request connection, b = .ok n request connection →
    ownOf request connection = own) : SameOwn a b := by
  cases a with
  | ok n request connection =>
    cases b with
    | ok n' request' connection' => exact (ha _ _ _ rfl).trans (hb _ _ _ rfl).symm
    | _ => trivial
  | _ => trivial

/-- For any first line: of a given one the elaborator would parse the request. -/
theorem Undisturbed.exists_own (h : Undisturbed line) : ∃ own : Connection → Own, ∀ {first : RequestLine}
    {before after : List HeaderLine} {inputSize : Nat} {connection : Connection} {without out : Parsed},
    (∀ l ∈ before ++ after, l.Ordinary) → Limits (headerOf first (before ++ line.toHeaderLine :: after)) inputSize →
      buildHTTPRequestHeaderStruct ((headerOf first (before ++ after)).bytes ++ []) inputSize .free connection = without →
        buildHTTPRequestHeaderStruct ((headerOf first (before ++ line.toHeaderLine :: after)).bytes ++ []) inputSize .free
          connection = out → LeftAlone (own connection) without out := by
  obtain ⟨own, hown⟩ := h
  refine ⟨own, ?_⟩
  rintro first before after inputSize connection _ _ hordinary hlimits rfl rfl
  exact hown first before after [] inputSize connection hordinary hlimits

theorem inside_of_undisturbed {line : SpecialLine} (h : Undisturbed line) : line.Inside := by
  by_contra hout
  unfold SpecialLine.Inside at hout
  rw [not_or, not_lt] at hout
  obtain ⟨hshort, hout⟩ := hout
  have hspoils : Spoils line.text := by
    have hcommand := line.command_eq
    cases hkind : line.special with
    | authorization =>
      rw [hkind] at hout hcommand
      exact spoils_authorization hcommand hout
    | range =>
      rw [hkind] at hout hcommand
      exact spoils_range hcommand hout
  obtain ⟨own, hown⟩ := h.exists_own
  obtain ⟨length, hlength, a, ha, b, hb, hspoils⟩ := hspoils
  have hordinary : ∀ name (hname : name ∈ names),
      ∀ l ∈ [lengthLine length hlength] ++ [behindLine name hname], l.Ordinary := by
    intro name hname l hl
    rcases List.mem_append.mp hl with hl | hl
    · rw [List.mem_singleton.mp hl]
      exact ordinary_front hlength
    · rw [List.mem_singleton.mp hl]
      exact ordinary_behind hname
  -- What the claim says of the request with the line of this name behind.
  have hclean : ∀ name (hname : name ∈ names) out,
      out = loopAt (resourceLine.line ++ crlf ++ ((lengthLine length hlength).text ++ crlf)) line.text name
        (resourceLine.line.length + 85) { HttpRequestHeader.free.requested resourceLine with contentLength := length }
        ⟨[], []⟩ →
      Clean length name out ∧ ∀ n request connection, out = .ok n request connection →
        ownOf request connection = own ⟨[], []⟩ := by
    intro name hname out hout
    have hsaid := hown (hordinary name hname) (three_limits hlength hname hshort) (clean_of_ok hlength hname hshort)
      ((three_loop hlength hname hshort).trans hout.symm)
    cases out with
    | undefined => exact absurd hsaid nofun
    | incomplete => exact ⟨trivial, nofun⟩
    | error code request => exact ⟨trivial, nofun⟩
    | ok n request connection =>
      obtain ⟨n', without, connection'', hok, hsame, hfields⟩ := hsaid
      obtain ⟨-, rfl, -⟩ := Parsed.ok.inj hok
      refine ⟨⟨hsame.contentLength, hsame.other⟩, ?_⟩
      rintro _ _ _ hinj
      obtain ⟨-, rfl, rfl⟩ := Parsed.ok.inj hinj
      exact hfields
  obtain ⟨hcleanA, hownA⟩ := hclean a ha _ rfl
  obtain ⟨hcleanB, hownB⟩ := hclean b hb _ rfl
  have hother : ({ HttpRequestHeader.free.requested resourceLine with contentLength := length } :
      HttpRequestHeader).other = fun _ => none := rfl
  have hno := hspoils (resourceLine.line ++ crlf ++ ((lengthLine length hlength).text ++ crlf))
    (resourceLine.line.length + 85) { HttpRequestHeader.free.requested resourceLine with contentLength := length }
    ⟨[], []⟩ rfl hother
  exact hno ⟨hcleanA, hcleanB, sameOwn_of hownA hownB⟩

/-- **Which Authorization and Range lines leave their neighbours alone**: those that are read inside. -/
theorem undisturbed_iff (line : SpecialLine) : Undisturbed line ↔ line.Inside := by
  refine ⟨inside_of_undisturbed, fun hinside => ?_⟩
  rcases hinside with hlong | hinside
  · -- No request with a line this long is taken.
    refine ⟨ownOf .free, fun first before after rest inputSize connection hordinary hlimits => ?_⟩
    have hmem : line.text ∈ (headerOf first (before ++ line.toHeaderLine :: after)).fields :=
      List.mem_map_of_mem (List.mem_append_right _ List.mem_cons_self)
    have hfits := hlimits.lines.fields _ hmem
    omega
  · apply undisturbed_of_passes
    have hcommand := line.command_eq
    cases hkind : line.special with
    | authorization =>
      rw [hkind] at hinside hcommand
      exact passes_authorization hcommand hinside
    | range =>
      rw [hkind] at hinside hcommand
      exact passes_range hcommand hinside

/-! ## A line that is not -/

/-- Its credentials are longer than the name of the line. -/
def bearerLine : SpecialLine where
  name := ascii "Authorization"
  blanks := 1
  value := ascii "Bearer abcdefghijkl"
  name_one := by decide
  name_colon := by decide
  value_one := by decide
  value_trimmed := by decide
  special := .authorization
  named := by decide

theorem not_undisturbed : ¬ ∀ line : SpecialLine, Undisturbed line := by
  intro h
  rcases inside_of_undisturbed (h bearerLine) with hlong | hinside
  · exact absurd hlong (by decide)
  · change AuthInside bearerLine.value at hinside
    have hscheme : getCharInString (ascii " ") bearerLine.value HTTP_REQUEST_AUTH_DIM = some 6 := by decide
    rw [AuthInside, hscheme] at hinside
    dsimp only at hinside
    rw [if_neg (by decide), if_neg (by decide), dif_pos (by decide)] at hinside
    exact absurd hinside.1 (by decide)

end MyServer.RequestHeader
