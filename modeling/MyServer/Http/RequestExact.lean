import MyServer.Http.RequestFields

/-!
# A request is parsed as it was written

The request line first, with the query's end found two characters at a time, and then the loop over the
fields. Their order does not show in what is stored.
-/

open MyServer.HeaderLines
open MyServer.ResponseHeader (HTTP_RESPONSE_OTHER_DIM)

namespace MyServer.RequestHeader

/-! ## The place of the version -/

section

variable {input token : Str}

theorem charAt_token {before : Str} (hinput : input = before ++ token) (i : Nat) :
    charAt input token i = token.getD i 0 := by
  unfold charAt
  rw [hinput, List.length_append, Nat.add_sub_cancel]
  have hplace : ((before.length : Nat) : Int) + (i : Int) = ((before.length + i : Nat) : Int) := by push_cast; rfl
  rw [hplace, if_pos (Int.natCast_nonneg _), Int.toNat_natCast, List.getD_eq_getElem?_getD,
    List.getD_eq_getElem?_getD, List.getElem?_append_right (Nat.le_add_right _ _), Nat.add_sub_cancel_left]

/-- Back over `k` characters that are no spaces. -/
theorem seekSpace_back {steps k m : Nat} (hk : k ≤ steps) (hspace : charAt input token m = ch ' ')
    (hno : ∀ i, m < i → i ≤ m + k → charAt input token i ≠ ch ' ') :
    seekSpace input token steps ((m + k : Nat) : Int) = m := by
  induction k generalizing steps with
  | zero =>
    cases steps with
    | zero => rfl
    | succ steps => exact if_pos hspace
  | succ k ih =>
    obtain ⟨steps, rfl⟩ := Nat.exists_eq_add_of_le' (by omega : 1 ≤ steps)
    have hback : ((m + (k + 1) : Nat) : Int) - 1 = ((m + k : Nat) : Int) := by push_cast; ring
    rw [seekSpace, if_neg (hno _ (by omega) le_rfl), hback]
    exact ih (by omega) fun i hi hle => hno i hi (by omega)

/-- The version is what comes behind the last space. -/
theorem seekSpace_version {before target ver after : Str}
    (htoken : token = target ++ ch ' ' :: (ver ++ ch '\r' :: after)) (hinput : input = before ++ token)
    (hver : ch ' ' ∉ ver) (hlength : ver.length < HTTP_REQUEST_VER_DIM) :
    seekSpace input token HTTP_REQUEST_VER_DIM ((target.length + 1 + ver.length : Nat) : Int) = target.length := by
  have hplace : target.length + 1 + ver.length = target.length + (ver.length + 1) := by omega
  rw [hplace]
  apply seekSpace_back hlength
  · rw [charAt_token hinput, htoken, List.getD_eq_getElem?_getD, List.getElem?_append_right le_rfl, Nat.sub_self]
    rfl
  · intro i hi hle
    rw [charAt_token hinput, htoken, List.getD_eq_getElem?_getD, List.getElem?_append_right hi.le]
    obtain ⟨j, hj⟩ : ∃ j, i - target.length = j + 1 := ⟨i - target.length - 1, by omega⟩
    rw [hj, List.getElem?_cons_succ]
    rcases Nat.lt_or_ge j ver.length with hlt | hge
    · rw [List.getElem?_append_left hlt, List.getElem?_eq_getElem hlt, Option.getD_some]
      intro heq
      exact hver (heq ▸ List.getElem_mem hlt)
    · obtain rfl : j = ver.length := by omega
      rw [List.getElem?_append_right le_rfl, Nat.sub_self]
      exact fun h => absurd h (by simp; decide)

end

/-! ## The query -/

/-- The end of the query, rounded up to an even length. -/
theorem queryLoop_eq {i n fuel j : Nat} (hn : n < HTTP_REQUEST_URI_OPTS_DIM - 1) (hj : j ≤ n + 1)
    (heven : j % 2 = 0) (hfuel : n < j + fuel) : queryLoop i ((i + n + 1 : Nat) : Int) fuel j = n + n % 2 := by
  induction fuel generalizing j with
  | zero =>
    rw [queryLoop]
    omega
  | succ fuel ih =>
    rw [queryLoop]
    by_cases hlt : j < n
    · rw [if_pos ⟨by omega, by omega⟩]
      exact ih (by omega) (by omega) (by omega)
    · rw [if_neg (fun h => hlt (by omega))]
      omega

theorem trim_space {q : Str} (hq : ch ' ' ∉ q) (n : Nat) :
    trim (q ++ List.replicate n (ch ' ')) (ascii " ") = q := by
  have hspace : ∀ b : Byte, b ∈ ascii " " ↔ b = ch ' ' := fun b => by simp [ascii]
  have hright : trimRight (q ++ List.replicate n (ch ' ')) (ascii " ") = q := by
    unfold trimRight
    rw [List.rdropWhile, List.reverse_append, List.reverse_replicate, List.dropWhile_append_of_pos]
    · have hfirst : q.reverse.dropWhile (fun b => decide (b ∈ ascii " ")) = q.reverse := by
        rw [List.dropWhile_eq_self_iff]
        intro hpos hmem
        have hin : q.reverse[0] ∈ q := List.mem_reverse.mp (List.getElem_mem hpos)
        have heq : q.reverse[0] = ch ' ' := (hspace _).mp (by simpa using hmem)
        exact hq (heq ▸ hin)
      rw [hfirst, List.reverse_reverse]
    · intro b hb
      rw [List.eq_of_mem_replicate hb]
      decide
  unfold trim
  rw [hright, List.dropWhile_eq_self_iff]
  intro hpos hmem
  have heq : q[0] = ch ' ' := by simpa using hmem
  exact hq (heq ▸ List.getElem_mem hpos)

/-! ## The request line -/

theorem takeWhile_append_stop {α : Type} {p : α → Bool} {a : List α} {c : α} {rest : List α}
    (ha : ∀ b ∈ a, p b = true) (hc : p c = false) : (a ++ c :: rest).takeWhile p = a := by
  rw [List.takeWhile_append_of_pos ha, List.takeWhile_cons_of_neg (by rw [hc]; exact Bool.false_ne_true),
    List.append_nil]

section

variable {input before after uri ver : Str}

/-- The version, behind one space or none. -/
theorem version_taken (hone : OneLine ver) (hfirst : ver.head? ≠ some (ch ' '))
    (hlength : ver.length < HTTP_REQUEST_VER_DIM) (more : Str) (n : Nat) (hn : n ≤ 1) :
    let behind := List.replicate n (ch ' ') ++ (ver ++ ch '\r' :: more)
    ((behind.take 10).takeWhile (· = ch ' ')).length = n ∧
      ((behind.drop n).take HTTP_REQUEST_VER_DIM).takeWhile (fun c => c ≠ ch '\r' ∧ c ≠ ch '\n') = ver := by
  intro behind
  refine ⟨?_, ?_⟩
  · obtain ⟨c, rest, hrest, hc⟩ : ∃ c rest, ver ++ ch '\r' :: more = c :: rest ∧ c ≠ ch ' ' := by
      cases ver with
      | nil => exact ⟨_, _, rfl, by decide⟩
      | cons c ver => exact ⟨c, _, rfl, by simpa using hfirst⟩
    have hshape : behind.take 10 = List.replicate n (ch ' ') ++ c :: rest.take (9 - n) := by
      simp only [behind, hrest, List.take_append, List.length_replicate]
      rw [List.take_of_length_le (by rw [List.length_replicate]; omega)]
      have hk : 10 - n = 9 - n + 1 := by omega
      rw [hk, List.take_succ_cons]
    rw [hshape, takeWhile_append_stop]
    · exact List.length_replicate
    · intro b hb
      rw [List.eq_of_mem_replicate hb]
      decide
    · simpa using hc
  · have hdrop : behind.drop n = ver ++ ch '\r' :: more := by
      have hleft := @List.drop_left _ (List.replicate n (ch ' ')) (ver ++ ch '\r' :: more)
      rwa [List.length_replicate] at hleft
    obtain ⟨k, hk⟩ : ∃ k, HTTP_REQUEST_VER_DIM - ver.length = k + 1 :=
      ⟨HTTP_REQUEST_VER_DIM - ver.length - 1, by omega⟩
    rw [hdrop, List.take_append, List.take_of_length_le hlength.le, hk, List.take_succ_cons, takeWhile_append_stop]
    · intro b hb
      have hbyte := hone b hb
      simpa using ⟨hbyte.1, hbyte.2.1⟩
    · decide

theorem seekSpace_ge {token : Str} {steps k m : Nat} (hk : k ≤ steps) (hspace : charAt input token m = ch ' ') :
    (m : Int) ≤ seekSpace input token steps ((m + k : Nat) : Int) := by
  induction k generalizing steps with
  | zero =>
    cases steps with
    | zero => exact le_rfl
    | succ steps => rw [seekSpace, Nat.add_zero, if_pos hspace]
  | succ k ih =>
    obtain ⟨steps, rfl⟩ := Nat.exists_eq_add_of_le' (by omega : 1 ≤ steps)
    have hback : ((m + (k + 1) : Nat) : Int) - 1 = ((m + k : Nat) : Int) := by push_cast; ring
    rw [seekSpace]
    split_ifs
    · exact Int.ofNat_le.mpr (by omega)
    · rw [hback]
      exact ih (by omega)

/-- A line without a query. -/
theorem firstLine_plain (hinput : input = before ++ (uri ++ ch ' ' :: (ver ++ ch '\r' :: after)))
    (huri : ∀ b ∈ uri, b ≠ ch '?' ∧ b ≠ ch ' ') (hne : uri ≠ []) (hlong : uri.length ≤ HTTP_REQUEST_URI_DIM)
    (hone : OneLine ver) (hfirst : ver.head? ≠ some (ch ' ')) (hlength : ver.length < HTTP_REQUEST_VER_DIM) :
    firstLine input (uri ++ ch ' ' :: (ver ++ ch '\r' :: after)) (uri.length + 1 + ver.length) =
      some ⟨uri, [], ver⟩ := by
  have hmax : (uri.length : Int) ≤ seekSpace input (uri ++ ch ' ' :: (ver ++ ch '\r' :: after))
      HTTP_REQUEST_VER_DIM ((uri.length + 1 + ver.length : Nat) : Int) := by
    have hplace : uri.length + 1 + ver.length = uri.length + (ver.length + 1) := by omega
    rw [hplace]
    apply seekSpace_ge hlength
    rw [charAt_token hinput, List.getD_eq_getElem?_getD, List.getElem?_append_right le_rfl, Nat.sub_self]
    rfl
  have hspace : (uri ++ ch ' ' :: (ver ++ ch '\r' :: after))[uri.length]? = some (ch ' ') := by simp
  have hbehind : (uri ++ ch ' ' :: (ver ++ ch '\r' :: after)).drop (uri.length + 0 + 1) = ver ++ ch '\r' :: after := by
    rw [Nat.add_zero, ← List.drop_drop, List.drop_left]
    rfl
  obtain ⟨hspaces, htaken⟩ := version_taken hone hfirst hlength after 0 (by omega)
  unfold firstLine
  generalize seekSpace input (uri ++ ch ' ' :: (ver ++ ch '\r' :: after)) HTTP_REQUEST_VER_DIM
    ((uri.length + 1 + ver.length : Nat) : Int) = max at hmax
  obtain ⟨k, hk⟩ : ∃ k, min max.toNat HTTP_REQUEST_URI_DIM = uri.length + k :=
    ⟨min max.toNat HTTP_REQUEST_URI_DIM - uri.length, by omega⟩
  have htake : ((uri ++ ch ' ' :: (ver ++ ch '\r' :: after)).take (uri.length + k)).takeWhile
      (fun c => decide (c ≠ ch '?' ∧ c ≠ ch ' ')) = uri := by
    have hall : ∀ b ∈ uri, decide (b ≠ ch '?' ∧ b ≠ ch ' ') = true := by
      intro b hb
      simpa using huri b hb
    rw [List.take_length_add_append]
    cases k with
    | zero => simpa using huri
    | succ k => exact takeWhile_append_stop hall (by decide)
  have hno : ¬ (uri.length < uri.length + k ∧ some (ch ' ') = some (ch '?')) := by
    rintro ⟨-, h⟩
    exact absurd h (by decide)
  dsimp only
  rw [hk, htake, if_neg (fun h => hne (List.length_eq_zero_iff.mp h)), hspace, if_neg hno, hbehind]
  simp only [List.replicate_zero, List.nil_append] at hspaces htaken
  rw [hspaces, if_neg (by decide), htaken, if_neg hlength.ne]
  rfl

end

section

variable (first : RequestLine) {input before after : Str}

theorem RequestLine.ver_first : first.ver.head? ≠ some (ch ' ') := by
  intro h
  exact first.ver_space (List.mem_of_head? h)

/-- What is told from the URI by the first `?`, and from the version by the last space. -/
theorem firstLine_eq (hinput : input = before ++ (first.target ++ ch ' ' :: (first.ver ++ ch '\r' :: after)))
    (hlength : first.target.length < HTTP_REQUEST_URI_DIM - 1) :
    ∃ n, firstLine input (first.target ++ ch ' ' :: (first.ver ++ ch '\r' :: after))
      (first.target.length + 1 + first.ver.length) =
        some ⟨first.uri, first.query.getD [] ++ List.replicate n (ch ' '), first.ver⟩ := by
  cases hquery : first.query with
  | none =>
    have htarget : first.target = first.uri := by simp [RequestLine.target, hquery]
    rw [htarget] at hinput hlength ⊢
    exact ⟨0, firstLine_plain hinput first.uri_seps first.uri_ne (by omega) first.ver_one first.ver_first
      first.ver_length⟩
  | some q =>
    have htarget : first.target = first.uri ++ ch '?' :: q := by simp [RequestLine.target, hquery]
    have hmax := seekSpace_version rfl hinput first.ver_space first.ver_length
    have hmin : min ((first.target.length : Int)).toNat HTTP_REQUEST_URI_DIM = first.target.length := by
      rw [Int.toNat_natCast]
      omega
    have hplain : ∀ b ∈ first.uri, decide (b ≠ ch '?' ∧ b ≠ ch ' ') = true := by
      intro b hb
      simpa using first.uri_seps b hb
    have hne : first.uri.length ≠ 0 := fun h => first.uri_ne (List.eq_nil_of_length_eq_zero h)
    have hn : q.length < HTTP_REQUEST_URI_OPTS_DIM - 1 := by
      rw [htarget, List.length_append, List.length_cons] at hlength
      change q.length < HTTP_REQUEST_URI_DIM - 1
      omega
    obtain ⟨hspaces, htaken⟩ := version_taken first.ver_one first.ver_first first.ver_length after
      (1 - q.length % 2) (by omega)
    have huri : (first.uri ++ ch '?' :: q).takeWhile (fun c => decide (c ≠ ch '?' ∧ c ≠ ch ' ')) = first.uri :=
      takeWhile_append_stop hplain (by decide)
    have hloop : queryLoop first.uri.length ((first.uri ++ ch '?' :: q).length : Int) HTTP_REQUEST_URI_OPTS_DIM 0 =
        q.length + q.length % 2 := by
      have hplace : (first.uri ++ ch '?' :: q).length = first.uri.length + q.length + 1 := by
        simp
        omega
      rw [hplace]
      exact queryLoop_eq hn (by omega) rfl (by omega)
    have hopts : ((first.uri ++ ch '?' :: q ++ ch ' ' :: (first.ver ++ ch '\r' :: after)).drop
        (first.uri.length + 1)).take (q.length + q.length % 2) = q ++ List.replicate (q.length % 2) (ch ' ') := by
      rw [List.append_assoc, ← List.drop_drop, List.drop_left, List.cons_append, List.drop_succ_cons, List.drop_zero,
        List.take_length_add_append]
      rcases Nat.mod_two_eq_zero_or_one q.length with h | h <;> rw [h] <;> rfl
    have hbehind : (first.uri ++ ch '?' :: q ++ ch ' ' :: (first.ver ++ ch '\r' :: after)).drop
        (first.uri.length + (q.length + q.length % 2) + 1) =
          List.replicate (1 - q.length % 2) (ch ' ') ++ (first.ver ++ ch '\r' :: after) := by
      have hplace : first.uri.length + (q.length + q.length % 2) + 1 =
          (first.uri ++ ch '?' :: q).length + q.length % 2 := by
        simp
        omega
      rw [hplace, List.drop_length_add_append]
      rcases Nat.mod_two_eq_zero_or_one q.length with h | h <;> rw [h] <;> rfl
    have hcontain : first.uri.length < (first.uri ++ ch '?' :: q).length ∧
        (first.uri ++ ch '?' :: q ++ ch ' ' :: (first.ver ++ ch '\r' :: after))[first.uri.length]? = some (ch '?') := by
      simp
    refine ⟨q.length % 2, ?_⟩
    unfold firstLine
    simp only [hmax, hmin, List.take_left]
    rw [htarget, huri, if_neg hne, if_pos hcontain, hloop, hopts, hbehind, hspaces, if_neg (by omega), htaken,
      if_neg first.ver_length.ne]
    rfl

theorem RequestLine.target_one : OneLine (first.target ++ ch ' ' :: first.ver) := by
  have htarget : OneLine first.target := by
    apply first.uri_one.append
    cases hquery : first.query with
    | none => exact nofun
    | some q => exact .cons (by decide) (first.query_one q hquery)
  exact htarget.append (.cons (by decide) first.ver_one)

/-- The header of a request as it is sent. -/
def requestHeader (fields : List PlainField) : Header where
  first := first.line
  fields := fields.map fun field => field.line
  line l hl := by
    have hone : OneLine first.line := first.method_one.append (.cons (by decide) first.target_one)
    rcases List.mem_cons.mp hl with rfl | hl
    · exact ⟨by simp [RequestLine.line], hone.line⟩
    · obtain ⟨field, -, rfl⟩ := List.mem_map.mp hl
      exact ⟨by simp [Field.line], field.one.line⟩

theorem requestHeader_bytes (fields : List PlainField) : (requestHeader first fields).bytes =
    first.line ++ crlf ++ (fieldLines (fields.map PlainField.toField) ++ crlf) := by
  simp [Header.bytes, Header.lines, requestHeader, fieldLines, List.flatMap_map]

/-- What the request line gives. -/
def HttpRequestHeader.requested (request : HttpRequestHeader) (first : RequestLine) : HttpRequestHeader :=
  { request with
    cmd := first.method
    uri := trimRight first.uri (ascii " /")
    uriOpts := first.query.getD []
    ver := first.ver
    uriEndsWithSlash := first.uri.getLast? = some (ch '/') }

end

/-- The loop goes on behind a request line that is taken. -/
theorem build_line {input method text tail : Str} {inputSize maxTotchars : Nat} {line : FirstLine}
    (request : HttpRequestHeader) (connection : Connection)
    (hmethod : ∀ b ∈ method, b ≠ 0 ∧ b ∉ ascii ": ,\t\n\r") (hmethodLength : method.length < HTTP_REQUEST_CMD_DIM)
    (htext : OneLine text) (hfirst : text.head? ≠ some (ch ' '))
    (hlength : text.length < HTTP_REQUEST_VER_DIM + HTTP_REQUEST_URI_DIM + 10)
    (hinput : input = method ++ ch ' ' :: (text ++ ch '\r' :: LF :: tail))
    (hvalid : validHTTPRequest (memory input fun _ => 0) inputSize = .valid maxTotchars)
    (hparts : firstLine input (text ++ ch '\r' :: LF :: tail) text.length = some line) :
    buildHTTPRequestHeaderStruct input inputSize request connection =
      resume input maxTotchars input.length tail ({ request with cmd := method }.first line) connection := by
  have hdim : HTTP_REQUEST_CMD_DIM = 16 := rfl
  have hver : HTTP_REQUEST_VER_DIM = 10 := rfl
  have hcmd : getCharInString (ascii ": ,\t\n\r") input HTTP_REQUEST_CMD_DIM = some method.length := by
    rw [hinput]
    exact getCharInString_append hmethod ⟨by decide, by decide⟩ hmethodLength
  have hcommand : input.take (min 95 method.length) = method := by
    rw [Nat.min_eq_right (by omega), hinput, List.take_left]
  have htoken : behindName input method.length = text ++ ch '\r' :: LF :: tail := by
    have hcolon : ¬ some (ch ' ') = some (ch ':') := by decide
    unfold behindName
    rw [hinput, List.drop_left]
    dsimp only
    rw [List.head?_cons, if_neg hcolon, List.dropWhile_cons_of_pos (by decide)]
    cases text with
    | nil => exact List.dropWhile_cons_of_neg (by decide)
    | cons c text => exact List.dropWhile_cons_of_neg (by simpa using hfirst)
  have hdrop : (text ++ ch '\r' :: LF :: tail).drop (text.length + 2) = tail := by
    rw [← List.drop_drop, List.drop_left]
    rfl
  unfold buildHTTPRequestHeaderStruct
  rw [hvalid]
  dsimp only
  rw [hcmd]
  dsimp only
  rw [parseLoop, hcommand, htoken]
  unfold readFirst
  dsimp only
  rw [if_pos rfl, getEndLine_line htext hlength]
  dsimp only
  rw [if_neg (by omega), hparts, Nat.min_eq_right hmethodLength.le, List.take_length]
  dsimp only
  rw [hdrop]
  rfl

section

variable (first : RequestLine) {input : Str}

theorem build_first {tail : Str} {inputSize maxTotchars : Nat} (request : HttpRequestHeader)
    (connection : Connection) (hinput : input = first.line ++ crlf ++ tail)
    (hvalid : validHTTPRequest (memory input fun _ => 0) inputSize = .valid maxTotchars)
    (hlength : first.target.length < HTTP_REQUEST_URI_DIM - 1) :
    buildHTTPRequestHeaderStruct input inputSize request connection =
      resume input maxTotchars input.length tail (request.requested first) connection := by
  have hver := first.ver_length
  have hplace : (first.target ++ ch ' ' :: first.ver).length = first.target.length + 1 + first.ver.length := by
    rw [List.length_append, List.length_cons]
    omega
  have hsplit : first.target ++ ch ' ' :: first.ver ++ ch '\r' :: LF :: tail =
      first.target ++ ch ' ' :: (first.ver ++ ch '\r' :: LF :: tail) := by simp
  have hshape : input = first.method ++ ch ' ' :: (first.target ++ ch ' ' :: first.ver ++ ch '\r' :: LF :: tail) := by
    rw [hinput]
    simp [RequestLine.line, crlf, LF]
  have hbefore : input = first.method ++ [ch ' '] ++
      (first.target ++ ch ' ' :: (first.ver ++ ch '\r' :: LF :: tail)) := by
    rw [hshape]
    simp
  obtain ⟨n, hline⟩ := firstLine_eq first hbefore hlength
  have hfirst : (first.target ++ ch ' ' :: first.ver).head? ≠ some (ch ' ') := by
    obtain ⟨c, uri, huri⟩ := List.exists_cons_of_ne_nil first.uri_ne
    have hc := (first.uri_seps c (by rw [huri]; exact List.mem_cons_self)).2
    simpa [RequestLine.target, huri] using hc
  rw [build_line request connection (fun b hb => ⟨(first.method_one b hb).2.2, first.method_seps b hb⟩)
    first.method_length first.target_one hfirst (by rw [hplace]; omega) hshape hvalid (by rw [hsplit, hplace]; exact hline)]
  congr 1
  simp only [HttpRequestHeader.first, HttpRequestHeader.requested, first.ver_ne, if_false]
  rw [trim_space]
  cases hquery : first.query with
  | none => exact List.not_mem_nil
  | some q => exact first.query_space q hquery

/-! ## The whole request -/

/-- What the scan takes. -/
structure Limits (header : Header) (inputSize : Nat) : Prop where
  lines : Fits header
  length : header.bytes.length < 2 ^ 13 + 3
  size : header.bytes.length ≤ inputSize

variable {first}

/-- No line of such a header is too long for a field. -/
theorem Limits.value_length {fields : List PlainField} {inputSize : Nat}
    (h : Limits (requestHeader first fields) inputSize) :
    first.target.length < HTTP_REQUEST_URI_DIM - 1 ∧
      ∀ field ∈ fields, field.value.length ≤ HTTP_RESPONSE_OTHER_DIM := by
  have hdim : HTTP_REQUEST_URI_DIM = 4096 := rfl
  have hother : HTTP_RESPONSE_OTHER_DIM = 4096 := rfl
  refine ⟨?_, fun field hfield => ?_⟩
  · have hline := h.lines.first
    change first.line.length + 1 ≤ 2048 at hline
    simp only [RequestLine.line, List.length_append, List.length_cons] at hline
    omega
  · have hline := h.lines.fields field.line (List.mem_map_of_mem hfield)
    simp only [Field.line, List.length_append, List.length_cons] at hline
    omega

/-- The fold over the lines, in the order that they come in. -/
theorem build_fold {fields : List PlainField} {inputSize : Nat} (rest : Str) (connection : Connection)
    (hnodup : ((fields.map PlainField.toField).map Field.key).Nodup)
    (hlimits : Limits (requestHeader first fields) inputSize) :
    buildHTTPRequestHeaderStruct ((requestHeader first fields).bytes ++ rest) inputSize .free connection =
      .ok (requestHeader first fields).bytes.length
        ((fields.map PlainField.toField).foldl HttpRequestHeader.line (HttpRequestHeader.free.requested first))
        connection := by
  have hvalid := @valid_memory _ _ hlimits.lines rest (fun _ => 0) hlimits.length hlimits.size
  have hbytes := requestHeader_bytes first fields
  have hplain : ∀ field ∈ fields.map PlainField.toField, field.Plain := by
    intro field hfield
    obtain ⟨field, -, rfl⟩ := List.mem_map.mp hfield
    exact field.plain
  have hlong : ∀ field ∈ fields.map PlainField.toField, field.value.length ≤ HTTP_RESPONSE_OTHER_DIM := by
    intro field hfield
    obtain ⟨field, hmem, rfl⟩ := List.mem_map.mp hfield
    exact hlimits.value_length.2 field hmem
  have hshape : (requestHeader first fields).bytes ++ rest =
      first.line ++ crlf ++ (fieldLines (fields.map PlainField.toField) ++ (crlf ++ rest)) := by
    rw [hbytes]
    simp only [List.append_assoc]
  rw [build_first first .free connection hshape hvalid hlimits.value_length.1,
    resume_lines hplain hlong hshape _ hnodup fun _ _ => rfl]
  rw [hbytes]
  simp only [List.length_append]
  omega

end

/-! ## The order of the lines -/

/-- The value of the length, and the other values by their keys. -/
def lengthOf (fields : List Field) : Option Str := (fields.find? Field.isLength).map Field.value

def Field.keyed (n : Str) (field : Field) : Bool := !field.isLength && field.key = n

def otherOf (fields : List Field) (n : Str) : Option Str := (fields.find? (Field.keyed n)).map Field.value

theorem Field.key_of_keyed {n : Str} {field : Field} (h : field.keyed n = true) : field.key = n := by
  simpa using (Bool.and_eq_true_iff.mp h).2

/-- The request that the lines say. -/
def requestOf (first : RequestLine) (fields : List Field) : HttpRequestHeader :=
  { HttpRequestHeader.free.requested first with
    contentLength := (lengthOf fields).getD []
    other := otherOf fields }

theorem Field.key_of_isLength {field : Field} (h : field.isLength = true) :
    field.key = ascii "content-length" := by
  have hname := cstr_of_notMem field.name_zero
  have hlength : cstr (ascii "Content-length") = ascii "Content-length" := by decide
  unfold Field.isLength caseEq at h
  rw [hname, hlength, decide_eq_true_eq] at h
  exact h.trans (by decide)

section

variable {fields : List Field}

theorem lengthOf_cons (field : Field) (hnotMem : field.key ∉ fields.map Field.key) :
    lengthOf (field :: fields) =
      (lengthOf fields).or (if field.isLength then some field.value else none) := by
  unfold lengthOf
  by_cases h : field.isLength = true
  · have hnone : fields.find? Field.isLength = none := by
      rw [List.find?_eq_none]
      intro next hnext hlength
      apply hnotMem
      rw [Field.key_of_isLength h, ← Field.key_of_isLength hlength]
      exact List.mem_map_of_mem hnext
    rw [List.find?_cons_of_pos h, hnone, if_pos h]
    rfl
  · rw [List.find?_cons_of_neg h, if_neg h, Option.or_none]

theorem otherOf_cons (field : Field) (hnotMem : field.key ∉ fields.map Field.key) (n : Str) :
    otherOf (field :: fields) n =
      (otherOf fields n).or (if field.keyed n then some field.value else none) := by
  unfold otherOf
  by_cases h : field.keyed n = true
  · have hnone : fields.find? (Field.keyed n) = none := by
      rw [List.find?_eq_none]
      intro next hnext hn
      apply hnotMem
      rw [Field.key_of_keyed h, ← Field.key_of_keyed hn]
      exact List.mem_map_of_mem hnext
    rw [List.find?_cons_of_pos h, hnone, if_pos h]
    rfl
  · rw [List.find?_cons_of_neg h, if_neg h, Option.or_none]

theorem fold_eq (hnodup : (fields.map Field.key).Nodup) (request : HttpRequestHeader) :
    fields.foldl HttpRequestHeader.line request =
      { request with
        contentLength := (lengthOf fields).getD request.contentLength
        other := fun n => (otherOf fields n).or (request.other n) } := by
  induction fields generalizing request with
  | nil => rfl
  | cons field fields ih =>
    obtain ⟨hnotMem, hnodup⟩ := List.nodup_cons.mp hnodup
    rw [List.foldl_cons, ih hnodup]
    simp only [lengthOf_cons field hnotMem, otherOf_cons field hnotMem]
    unfold HttpRequestHeader.line Field.keyed
    by_cases h : field.isLength = true
    · simp [h]
    · simp [h]
      funext n
      by_cases hn : n = field.key
      · simp [hn]
      · simp [hn, Ne.symm hn]

/-- Where at most one is found, the order does not matter. -/
theorem find_perm {fields' : List Field} (hperm : fields'.Perm fields) {p : Field → Bool}
    (hunique : ∀ a ∈ fields, ∀ b ∈ fields, p a = true → p b = true → a = b) :
    fields'.find? p = fields.find? p := by
  have hsome : ∀ l : List Field, (∀ a ∈ l, ∀ b ∈ l, p a = true → p b = true → a = b) →
      ∀ a, l.find? p = some a ↔ a ∈ l ∧ p a = true := by
    intro l hl a
    constructor
    · exact fun h => ⟨List.mem_of_find?_eq_some h, List.find?_some h⟩
    · rintro ⟨ha, hpa⟩
      cases hfind : l.find? p with
      | none => exact absurd hpa (List.find?_eq_none.mp hfind a ha)
      | some b => rw [hl b (List.mem_of_find?_eq_some hfind) a ha (List.find?_some hfind) hpa]
  apply Option.ext
  intro a
  rw [hsome fields hunique, hsome fields' (fun a ha b hb => hunique a (hperm.mem_iff.mp ha) b (hperm.mem_iff.mp hb)),
    hperm.mem_iff]

theorem requestOf_perm (first : RequestLine) {fields' : List Field} (hperm : fields'.Perm fields)
    (hnodup : (fields.map Field.key).Nodup) : requestOf first fields' = requestOf first fields := by
  have hinj : ∀ a ∈ fields, ∀ b ∈ fields, a.key = b.key → a = b := fun a ha b hb hkey =>
    List.inj_on_of_nodup_map hnodup ha hb hkey
  have hlength : lengthOf fields' = lengthOf fields := by
    unfold lengthOf
    rw [find_perm hperm]
    intro a ha b hb hla hlb
    exact hinj a ha b hb ((Field.key_of_isLength hla).trans (Field.key_of_isLength hlb).symm)
  have hother : otherOf fields' = otherOf fields := by
    funext n
    unfold otherOf
    rw [find_perm hperm]
    intro a ha b hb hna hnb
    exact hinj a ha b hb ((Field.key_of_keyed hna).trans (Field.key_of_keyed hnb).symm)
  unfold requestOf
  rw [hlength, hother]

end

theorem Limits.perm {first : RequestLine} {fields fields' : List PlainField} {inputSize : Nat}
    (h : Limits (requestHeader first fields) inputSize) (hperm : fields'.Perm fields) :
    Limits (requestHeader first fields') inputSize ∧
      (requestHeader first fields').bytes.length = (requestHeader first fields).bytes.length := by
  have hlines : (fieldLines (fields'.map PlainField.toField)).length =
      (fieldLines (fields.map PlainField.toField)).length :=
    ((hperm.map PlainField.toField).flatMap_right fun field : Field => field.line ++ crlf).length_eq
  have hlength : (requestHeader first fields').bytes.length = (requestHeader first fields).bytes.length := by
    rw [requestHeader_bytes, requestHeader_bytes]
    simp only [List.length_append, hlines]
  have hmap : (fields'.map fun field => field.line).Perm (fields.map fun field => field.line) :=
    hperm.map fun field => field.line
  refine ⟨⟨⟨h.lines.first, fun l hl => h.lines.fields l (hmap.mem_iff.mp hl), ?_⟩, ?_, ?_⟩, hlength⟩
  · exact hmap.length_eq.trans_le h.lines.number
  · rw [hlength]
    exact h.length
  · rw [hlength]
    exact h.size

/-- **A request is parsed as it was written**, whatever the order of its fields. -/
theorem parse_exact (first : RequestLine) (fields : List PlainField) (rest : Str) (inputSize : Nat)
    (connection : Connection) (hnodup : ((fields.map PlainField.toField).map Field.key).Nodup)
    (hlimits : Limits (requestHeader first fields) inputSize) (fields' : List PlainField)
    (hperm : fields'.Perm fields) :
    buildHTTPRequestHeaderStruct ((requestHeader first fields').bytes ++ rest) inputSize .free connection =
      .ok (requestHeader first fields).bytes.length (requestOf first (fields.map PlainField.toField))
        connection := by
  obtain ⟨hlimits', hlength⟩ := hlimits.perm hperm
  have hmap := hperm.map PlainField.toField
  have hnodup' := ((hmap.map Field.key).nodup_iff).mpr hnodup
  rw [build_fold rest connection hnodup' hlimits', hlength, ← requestOf_perm first hmap hnodup, fold_eq hnodup']
  simp [requestOf, HttpRequestHeader.requested, HttpRequestHeader.free]

/-! ## Two fields -/

def resourceLine : RequestLine where
  method := ascii "GET"
  uri := ascii "/resource/"
  query := some (ascii "a=b")
  ver := ascii "HTTP/1.1"
  method_ne := by decide
  method_one := by decide
  method_seps := by decide
  method_length := by decide
  uri_ne := by decide
  uri_one := by decide
  uri_seps := by decide
  query_one := by decide
  query_space := by decide
  ver_ne := by decide
  ver_one := oneLine_version
  ver_space := space_notMem_version
  ver_length := by decide

def hostField : PlainField where
  name := ascii "Host"
  value := ascii "localhost"
  name_zero := by decide
  name_colon := by decide
  name_first := by decide
  value_one := by decide
  value_trimmed := by decide
  name_one := by decide
  plain := ⟨by decide, by decide, by decide, by decide⟩

def lengthField : PlainField where
  name := ascii "Content-Length"
  value := ascii "5"
  name_zero := by decide
  name_colon := by decide
  name_first := by decide
  value_one := by decide
  value_trimmed := by decide
  name_one := by decide
  plain := ⟨by decide, by decide, by decide, by decide⟩

theorem resource_limits : Limits (requestHeader resourceLine [hostField, lengthField]) 8192 where
  lines := ⟨by decide, by decide, by decide⟩
  length := by decide
  size := by decide

theorem resource_parsed : buildHTTPRequestHeaderStruct (ascii "GET /resource/?a=b HTTP/1.1\r\nContent-Length: 5\r\n" ++
      ascii "Host: localhost\r\n\r\n" ++ [0]) 8192 .free ⟨[], []⟩ =
    .ok 67 (requestOf resourceLine [hostField.toField, lengthField.toField]) ⟨[], []⟩ := by
  have htext : ascii "GET /resource/?a=b HTTP/1.1\r\nContent-Length: 5\r\n" ++ ascii "Host: localhost\r\n\r\n" =
      (requestHeader resourceLine [lengthField, hostField]).bytes := by
    repeat rw [ascii_ofList]
    decide
  have hlength : (requestHeader resourceLine [hostField, lengthField]).bytes.length = 67 := by decide
  rw [htext, ← hlength]
  exact parse_exact resourceLine [hostField, lengthField] [0] 8192 ⟨[], []⟩ (by decide) resource_limits
    [lengthField, hostField] (List.Perm.swap hostField lengthField [])

end MyServer.RequestHeader
