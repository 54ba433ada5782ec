import MyServer.Decimal
import MyServer.Http.HeaderLines

/-!
# The header of a response, as it is read

`validHTTPResponse` looks for the end of the header in memory that is not ended by a NUL, and what it
finds is taken apart with `strtok` (http_headers.cpp).
-/

open MyServer.HeaderLines

namespace MyServer.ResponseHeader

/-! ## The scan -/

/-- A NUL, or an LF where the header is taken to end. -/
def stops (res : Nat → Byte) (i : Nat) : Bool :=
  res i = 0 || res i = LF && (res (i + 2) = LF || res (i + 1) = 0 || res (i + 1) = LF)

/-- The loop, from `i` on; `none` for a line that is too long. -/
def validLoop (res : Nat → Byte) : Nat → Nat → Nat → Nat → Option (Nat × Nat)
  | 0, _, _, _ => none
  | fuel + 1, i, nLinechars, nLines =>
    if stops res i then some (nLines, i)
    else if res i = LF then validLoop res fuel (i + 1) nLinechars (nLines + 1)
    -- The counter runs on over the line ends.
    else if 4160 ≤ nLinechars then none
    else validLoop res fuel (i + 1) (nLinechars + 1) nLines

/-- The lines and the characters of the header. More turns are never made: two LFs end the loop, so
there is at most one to each character that is counted, and one more. -/
def validHTTPResponse (res : Nat → Byte) : Option (Nat × Nat) :=
  match validLoop res 8323 0 0 0 with
  | none => none
  | some (nLines, i) => if nLines = 0 then none else some (nLines, i + 3)

/-! ## The parse -/

/-- What is skipped at the front, the token, and what comes behind the character that ends it. -/
def strtok (seps rest : Str) : Option Str × Str :=
  let s := rest.dropWhile (· ∈ seps)
  if s = [] then (none, [])
  else (some (s.takeWhile (· ∉ seps)), (s.dropWhile (· ∉ seps)).tail)

def cmdSeps : Str := ascii ": ,\t\n\r"

def lineSeps : Str := [ch '\r', LF]

def skipSpaces (token : Option Str) : Option Str := token.map (·.dropWhile (· = ch ' '))

def HTTP_RESPONSE_OTHER_DIM : Nat := 4096

def atoi (s : Str) : Int := (BitVec.ofInt 32 (atoll s)).toInt

/-- `other` under the names in lower case. -/
structure HttpResponseHeader where
  httpStatus : Int
  ver : Str
  contentLength : Str
  errorType : Str
  other : Str → Option Str

/-- `httpStatus` stays as it is. -/
def HttpResponseHeader.free (response : HttpResponseHeader) : HttpResponseHeader where
  httpStatus := response.httpStatus
  ver := []
  contentLength := []
  errorType := []
  other _ := none

/-- A second value is appended to the first one, unless it is the type. -/
def HttpResponseHeader.store (response : HttpResponseHeader) (command token : Str) : HttpResponseHeader :=
  let name := command.map toLower
  let value :=
    match response.other name with
    | none => token
    | some old => if caseEq command (ascii "content-type") then token else old ++ ascii ", " ++ token
  { response with other := fun n => if n = name then some value else response.other n }

/-- A string is made from a null pointer, or what is returned and the response as it then is. -/
inductive Parsed
  | nullPointer
  | returned (validResponse : Bool) (response : HttpResponseHeader)

/-- The line that the first token is of. -/
def statusLine (response : HttpResponseHeader) (command rest : Str) : HttpResponseHeader × Str :=
  let response := { response with ver := command }
  let (token, rest) := strtok (ascii " ,\t\n\r") rest
  let response := { response with httpStatus := (token.map atoi).getD response.httpStatus }
  let (token, rest) := strtok lineSeps rest
  ({ response with errorType := token.getD response.errorType }, rest)

/-- The loop over the lines: `token` starts one, `rest` is behind it. -/
def parseLoop : Nat → Bool → HttpResponseHeader → Option Str → Str → Parsed
  | 0, _, response, _, _ => .returned true response
  | _ + 1, _, response, none, _ => .returned true response
  | fuel + 1, isStatusLine, response, some token, rest =>
    let command := token.take 95
    if isStatusLine then
      let (response, rest) := statusLine response command rest
      let (token, rest) := strtok cmdSeps rest
      parseLoop fuel false response token rest
    else
      let (token, rest) := strtok lineSeps rest
      let token := skipSpaces token
      let (next, rest) := strtok cmdSeps rest
      if caseEq command (ascii "Status") then
        let status := if response.httpStatus = 200 then (token.map atoi).getD 200 else response.httpStatus
        parseLoop fuel false { response with httpStatus := status } next rest
      else if caseEq command (ascii "Content-length") then
        match token with
        | none => .nullPointer
        | some token => parseLoop fuel false { response with contentLength := token } next rest
      else
        match token with
        | none => parseLoop fuel false response next rest
        | some token =>
          if HTTP_RESPONSE_OTHER_DIM < token.length then .returned false response
          else parseLoop fuel false (response.store command token) next rest

def parse (input : Str) (response : HttpResponseHeader) : Parsed :=
  let containStatusLine : Bool := ascii "HTTP/" <+: input
  let (token, rest) := strtok (if containStatusLine then ascii " " else cmdSeps) input
  parseLoop (input.length + 1) containStatusLine response token rest

/-- What `buildHTTPResponseHeaderStruct` does with its input: nothing, or a parse of so many bytes. -/
inductive Built
  | notValid
  | parsed (input : Str) (nbtr : Nat) (result : Parsed)

def buildHTTPResponseHeaderStruct (input : Nat → Byte) (response : HttpResponseHeader) : Built :=
  if input 0 = 0 then .notValid
  else
    match validHTTPResponse input with
    | none => .notValid
    | some (_, maxTotchars) =>
      let newInput := cstr ((List.range maxTotchars).map input)
      .parsed newInput maxTotchars (parse newInput response)

/-! ## What the parse refuses -/

/-- What the loop cuts the text into behind the status line: the name of a field and its value. -/
def cutLines : Nat → Bool → Option Str → Str → List (Str × Option Str)
  | 0, _, _, _ | _ + 1, _, none, _ => []
  | fuel + 1, true, some _, rest =>
    let rest := (strtok lineSeps (strtok (ascii " ,\t\n\r") rest).2).2
    cutLines fuel false (strtok cmdSeps rest).1 (strtok cmdSeps rest).2
  | fuel + 1, false, some token, rest =>
    let value := strtok lineSeps rest
    (token.take 95, skipSpaces value.1) ::
      cutLines fuel false (strtok cmdSeps value.2).1 (strtok cmdSeps value.2).2

/-- A length has a value, a field none that is too long. -/
def LineFits (line : Str × Option Str) : Prop :=
  caseEq line.1 (ascii "Status") = true ∨
    caseEq line.1 (ascii "Content-length") = true ∧ line.2 ≠ none ∨
    caseEq line.1 (ascii "Content-length") = false ∧ ∀ value ∈ line.2, value.length ≤ HTTP_RESPONSE_OTHER_DIM

def linesOf (input : Str) : List (Str × Option Str) :=
  let containStatusLine : Bool := ascii "HTTP/" <+: input
  let first := strtok (if containStatusLine then ascii " " else cmdSeps) input
  cutLines (input.length + 1) containStatusLine first.1 first.2

theorem parseLoop_iff (fuel : Nat) (isStatusLine : Bool) (response : HttpResponseHeader)
    (token : Option Str) (rest : Str) :
    (∃ response', parseLoop fuel isStatusLine response token rest = .returned true response') ↔
      ∀ line ∈ cutLines fuel isStatusLine token rest, LineFits line := by
  induction fuel generalizing isStatusLine response token rest with
  | zero => exact iff_of_true ⟨_, rfl⟩ nofun
  | succ fuel ih =>
    cases token with
    | none => exact iff_of_true ⟨_, rfl⟩ nofun
    | some token =>
      cases isStatusLine with
      | true => exact ih false _ _ _
      | false =>
        rw [cutLines, List.forall_mem_cons, parseLoop]
        unfold LineFits
        rw [if_neg Bool.false_ne_true]
        dsimp only
        by_cases hstatus : caseEq (token.take 95) (ascii "Status") = true
        · rw [if_pos hstatus, ih]
          exact (and_iff_right (Or.inl hstatus)).symm
        · rw [if_neg hstatus]
          by_cases hlength : caseEq (token.take 95) (ascii "Content-length") = true
          · rw [if_pos hlength]
            cases hvalue : skipSpaces (strtok lineSeps rest).1 with
            | none =>
              refine iff_of_false (fun ⟨_, h⟩ => by cases h) ?_
              rintro ⟨h | ⟨-, h⟩ | ⟨h, -⟩, -⟩
              · exact hstatus h
              · exact h rfl
              · exact absurd hlength (by rw [h]; exact Bool.false_ne_true)
            | some value =>
              dsimp only
              rw [ih]
              exact (and_iff_right (Or.inr (Or.inl ⟨hlength, nofun⟩))).symm
          · rw [if_neg hlength]
            have hfield := Bool.eq_false_iff.mpr hlength
            cases hvalue : skipSpaces (strtok lineSeps rest).1 with
            | none =>
              dsimp only
              rw [ih]
              exact (and_iff_right (Or.inr (Or.inr ⟨hfield, nofun⟩))).symm
            | some value =>
              dsimp only
              by_cases hlong : HTTP_RESPONSE_OTHER_DIM < value.length
              · rw [if_pos hlong]
                refine iff_of_false (fun ⟨_, h⟩ => by cases h) ?_
                rintro ⟨h | ⟨h, -⟩ | ⟨-, h⟩, -⟩
                · exact hstatus h
                · exact hlength h
                · exact absurd (h value rfl) (by omega)
              · rw [if_neg hlong, ih]
                refine (and_iff_right (Or.inr (Or.inr ⟨hfield, ?_⟩))).symm
                rintro _ ⟨⟩
                omega

theorem parse_iff (input : Str) (response : HttpResponseHeader) :
    (∃ response', parse input response = .returned true response') ↔ ∀ line ∈ linesOf input, LineFits line :=
  parseLoop_iff _ _ _ _ _

/-! ## Where the scan stops -/

/-- How many of the `n` bytes from `i` on are counted. -/
def counted (res : Nat → Byte) (i : Nat) : Nat → Nat
  | 0 => 0
  | n + 1 => (if res i = LF then 0 else 1) + counted res (i + 1) n

/-- It is the first place where the scan stops. -/
def FirstStop (res : Nat → Byte) (i : Nat) : Prop := stops res i = true ∧ ∀ j < i, stops res j = false

/-- The scan finds a header: at least one line ends before the place where it stops, and not too many
characters come before it. -/
def Accepted (res : Nat → Byte) (i : Nat) : Prop :=
  FirstStop res i ∧ (∃ j < i, res j = LF) ∧ counted res 0 i ≤ 4160

section

variable {res : Nat → Byte}

theorem counted_le (i n : Nat) : counted res i n ≤ n := by
  induction n generalizing i with
  | zero => exact le_rfl
  | succ n ih =>
    have := ih (i + 1)
    rw [counted]
    split_ifs <;> omega

/-- Two LFs stop the scan, so at most every second byte before is one. -/
theorem le_counted {i n : Nat} (h : ∀ j < n, stops res (i + j) = false) :
    n ≤ 2 * counted res i n + 1 ∧ (res i ≠ LF → n ≤ 2 * counted res i n) := by
  induction n generalizing i with
  | zero => exact ⟨Nat.zero_le _, fun _ => Nat.zero_le _⟩
  | succ n ih =>
    have hrest : ∀ j < n, stops res (i + 1 + j) = false := by
      intro j hj
      have := h (j + 1) (by omega)
      rwa [Nat.add_right_comm, Nat.add_assoc]
    obtain ⟨hle, hle'⟩ := ih hrest
    rw [counted]
    by_cases hlf : res i = LF
    · rw [if_pos hlf]
      refine ⟨?_, fun hne => absurd hlf hne⟩
      have hnext : res (i + 1) ≠ LF := by
        intro hnext
        have hstop := h 0 (by omega)
        rw [Nat.add_zero, stops, hnext] at hstop
        simp [hlf] at hstop
      have := hle' hnext
      omega
    · rw [if_neg hlf]
      exact ⟨by omega, fun _ => by omega⟩

theorem counted_eq {i n : Nat} (h : ∀ j < i + n, i ≤ j → res j ≠ LF) : counted res i n = n := by
  induction n generalizing i with
  | zero => rfl
  | succ n ih =>
    rw [counted, if_neg (h i (by omega) le_rfl), ih fun j hj hij => h j (by omega) (by omega)]
    omega

theorem counted_lt {i n j : Nat} (hij : i ≤ j) (hj : j < i + n) (hlf : res j = LF) :
    counted res i n < n := by
  induction n generalizing i with
  | zero => omega
  | succ n ih =>
    have hle := @counted_le res (i + 1) n
    rw [counted]
    by_cases hhere : i = j
    · rw [hhere, if_pos hlf, ← hhere]
      omega
    · have := ih (by omega : i + 1 ≤ j) (by omega)
      split_ifs <;> omega

theorem not_stops_succ {i n : Nat} (hfirst : ¬ stops res i = true)
    (hrest : ∀ j < n, stops res (i + 1 + j) = false) : ∀ j < n + 1, stops res (i + j) = false := by
  intro j hj
  cases j with
  | zero => exact Bool.eq_false_iff.mpr hfirst
  | succ j =>
    have := hrest j (by omega)
    rwa [Nat.add_right_comm, Nat.add_assoc] at this

theorem validLoop_stop {fuel i c l n : Nat} (hbefore : ∀ j < n, stops res (i + j) = false)
    (hstop : stops res (i + n) = true) (hcount : c + counted res i n ≤ 4160) (hfuel : n < fuel) :
    validLoop res fuel i c l = some (l + (n - counted res i n), i + n) := by
  induction n generalizing fuel i c l with
  | zero =>
    obtain ⟨fuel, rfl⟩ := Nat.exists_eq_add_of_le' hfuel
    rw [Nat.add_zero] at hstop
    rw [validLoop, if_pos hstop]
    rfl
  | succ n ih =>
    obtain ⟨fuel, rfl⟩ := Nat.exists_eq_add_of_le' (by omega : 1 ≤ fuel)
    have hfirst := hbefore 0 (by omega)
    rw [Nat.add_zero] at hfirst
    have hrest : ∀ j < n, stops res (i + 1 + j) = false := by
      intro j hj
      have := hbefore (j + 1) (by omega)
      rwa [Nat.add_right_comm, Nat.add_assoc]
    have hle := @counted_le res (i + 1) n
    have hplace : i + 1 + n = i + (n + 1) := by omega
    rw [validLoop, if_neg (by rw [hfirst]; exact Bool.false_ne_true)]
    rw [counted] at hcount ⊢
    by_cases hlf : res i = LF
    · rw [if_pos hlf] at hcount ⊢
      rw [if_pos hlf, ih hrest (by rwa [hplace]) (by omega) (by omega), hplace]
      congr 2
      omega
    · rw [if_neg hlf] at hcount ⊢
      rw [if_neg hlf, if_neg (by omega), ih hrest (by rwa [hplace]) (by omega) (by omega), hplace]
      congr 2
      omega

theorem stop_of_validLoop {fuel i c l l' i' : Nat} (h : validLoop res fuel i c l = some (l', i')) :
    ∃ n, i' = i + n ∧ (∀ j < n, stops res (i + j) = false) ∧ stops res i' = true ∧
      c + counted res i n ≤ max c 4160 ∧ l' = l + (n - counted res i n) := by
  induction fuel generalizing i c l with
  | zero => exact absurd h nofun
  | succ fuel ih =>
    rw [validLoop] at h
    split_ifs at h with hstop hlf hlong
    · obtain ⟨rfl, rfl⟩ := Prod.mk.inj (Option.some.inj h)
      exact ⟨0, rfl, nofun, hstop, le_max_left _ _, rfl⟩
    · obtain ⟨n, rfl, hbefore, hstop', hcount, rfl⟩ := ih h
      have hle := @counted_le res (i + 1) n
      refine ⟨n + 1, by omega, not_stops_succ hstop hbefore, hstop', ?_, ?_⟩
      · rw [counted, if_pos hlf]
        omega
      · rw [counted, if_pos hlf]
        omega
    · obtain ⟨n, rfl, hbefore, hstop', hcount, rfl⟩ := ih h
      have hle := @counted_le res (i + 1) n
      refine ⟨n + 1, by omega, not_stops_succ hstop hbefore, hstop', ?_, ?_⟩
      · rw [counted, if_neg hlf]
        omega
      · rw [counted, if_neg hlf]
        omega

theorem validHTTPResponse_eq_some {nLines nchars : Nat} : validHTTPResponse res = some (nLines, nchars) ↔
    ∃ i, Accepted res i ∧ nLines = i - counted res 0 i ∧ nchars = i + 3 := by
  constructor
  · intro h
    unfold validHTTPResponse at h
    split at h
    · exact absurd h nofun
    · rename_i l i hloop
      obtain ⟨n, rfl, hbefore, hstop, hcount, rfl⟩ := stop_of_validLoop hloop
      split_ifs at h with hzero
      obtain ⟨rfl, rfl⟩ := Prod.mk.inj (Option.some.inj h)
      simp only [Nat.zero_add] at hbefore hstop hcount hzero ⊢
      refine ⟨n, ⟨⟨hstop, hbefore⟩, ?_, by omega⟩, rfl, rfl⟩
      by_contra hno
      have hall : ∀ j < 0 + n, 0 ≤ j → res j ≠ LF := fun j hj _ hlf => hno ⟨j, by omega, hlf⟩
      exact hzero (by rw [counted_eq hall, Nat.sub_self])
  · rintro ⟨i, ⟨⟨hstop, hbefore⟩, ⟨j, hj, hlf⟩, hcount⟩, rfl, rfl⟩
    have hturns := (@le_counted res 0 i (by simpa using hbefore)).1
    have hloop := @validLoop_stop res 8323 0 0 0 i (by simpa using hbefore) (by simpa using hstop)
      (by omega) (by omega)
    have hlines : i - counted res 0 i ≠ 0 := by
      have := @counted_lt res 0 i j (Nat.zero_le _) (by omega) hlf
      omega
    unfold validHTTPResponse
    rw [hloop]
    dsimp only
    rw [Nat.zero_add, Nat.zero_add, if_neg hlines]

end

/-! ## A whole header -/

/-- Where the scan of such a text stops. -/
theorem inside_stops {text : Str} (h : Inside text) (behind : Nat → Byte) : 3 ≤ text.length ∧
    (∀ j, j + 3 < text.length → stops (memory text behind) j = false) ∧
      stops (memory text behind) (text.length - 3) = true := by
  induction text generalizing behind with
  | nil => exact h.elim
  | cons x text ih =>
    match text, h with
    | y :: z :: [], h =>
      obtain ⟨rfl, rfl⟩ := h.1 rfl
      exact ⟨le_rfl, fun j hj => by simp at hj, by simp [stops, memory]⟩
    | y :: z :: w :: rest, h =>
      obtain ⟨hzero, hlf, hinside⟩ := h.2 (List.cons_ne_nil _ _)
      obtain ⟨hlen, hbefore, hstop⟩ := ih hinside fun j => behind (j + 1)
      refine ⟨by simp, fun j hj => ?_, ?_⟩
      · cases j with
        | zero =>
          by_cases hx : x = LF
          · obtain ⟨hy, hy', hz⟩ := hlf hx
            simp [stops, memory, hx, hy, hy', hz]
            decide
          · simp [stops, memory, hzero, hx]
        | succ j => exact hbefore j (by simpa using hj)
      · have hplace : (x :: y :: z :: w :: rest).length - 3 = (y :: z :: w :: rest).length - 3 + 1 := by
          simp
        rw [hplace]
        exact hstop

/-! ## The scan of a header -/

theorem counted_shift (res : Nat → Byte) (i n : Nat) :
    counted res (i + 1) n = counted (fun j => res (j + 1)) i n := by
  induction n generalizing i with
  | zero => rfl
  | succ n ih => rw [counted, counted, ih]

theorem counted_memory {text : Str} {behind : Nat → Byte} {n : Nat} (hn : n ≤ text.length) :
    counted (memory text behind) 0 n = (text.take n).countP (· ≠ LF) := by
  induction text generalizing behind n with
  | nil =>
    obtain rfl := Nat.le_zero.mp hn
    rfl
  | cons x text ih =>
    cases n with
    | zero => rfl
    | succ n =>
      rw [counted, counted_shift, List.take_succ_cons, List.countP_cons]
      have hrest := @ih (fun j => behind (j + 1)) n (by simpa using hn)
      have hshift : (fun j => memory (x :: text) behind (j + 1)) = memory text fun j => behind (j + 1) := rfl
      have hfirst : memory (x :: text) behind 0 = x := rfl
      rw [hshift, hrest, hfirst, Nat.add_comm]
      by_cases hx : x = LF <;> simp [hx]

section

variable (header : Header) (behind : Nat → Byte)

/-- **The scan of a header that is there as a whole.** -/
theorem accepted_iff (i : Nat) : Accepted (memory header.bytes behind) i ↔
    i + 3 = header.bytes.length ∧ header.fields ≠ [] ∧ header.size ≤ 4160 := by
  obtain ⟨hlen, hbefore, hstop⟩ := inside_stops header.inside behind
  obtain ⟨front, hbytes, hcount, hlf⟩ := header.split
  have hfront : header.bytes.take (header.bytes.length - 3) = front := by
    rw [hbytes]
    simp
  have hplace : FirstStop (memory header.bytes behind) i ↔ i + 3 = header.bytes.length := by
    constructor
    · rintro ⟨hi, hi'⟩
      rcases Nat.lt_trichotomy (i + 3) header.bytes.length with h | h | h
      · exact absurd hi (by rw [hbefore i h]; exact Bool.false_ne_true)
      · exact h
      · exact absurd hstop (by rw [hi' _ (by omega)]; exact Bool.false_ne_true)
    · intro h
      obtain rfl : i = header.bytes.length - 3 := by omega
      exact ⟨hstop, fun j hj => hbefore j (by omega)⟩
  unfold Accepted
  rw [hplace]
  refine and_congr_right fun h => ?_
  obtain rfl : i = header.bytes.length - 3 := by omega
  rw [memory_mem (by omega), counted_memory (by omega), hfront, hlf, hcount]

/-- A header that is not there as a whole ends behind what is there. -/
theorem lt_of_accepted {k i : Nat} (hk : k < header.bytes.length)
    (h : Accepted (memory (header.bytes.take k) behind) i) : k < i + 3 := by
  by_contra hle
  obtain ⟨-, hbefore, -⟩ := inside_stops header.inside behind
  have hsame : ∀ j < k, memory (header.bytes.take k) behind j = memory header.bytes behind j := by
    intro j hj
    unfold memory
    rw [List.getD_eq_getElem?_getD, List.getD_eq_getElem?_getD, List.getElem?_take_of_lt hj]
  have hstop := h.1.1
  have hnot := hbefore i (by omega)
  unfold stops at hstop hnot
  rw [hsame i (by omega), hsame (i + 1) (by omega), hsame (i + 2) (by omega), hnot] at hstop
  exact Bool.false_ne_true hstop

end

end MyServer.ResponseHeader
