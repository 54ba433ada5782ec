import MyServer.Decimal
import MyServer.Http.CgiBlock

/-!
# SCGI requests

The environment as a netstring, and the post data behind it (scgi.cpp).
-/

open MyServer.Cgi

namespace MyServer.Scgi

/-- What the client sent: the text of its `Content-Length`, empty when there is none, and the file with
the post data. -/
structure Request where
  contentLength : Str
  inputData : Str

variable (realLength : Nat) (request : Request)

/-- Writing into a buffer of `realLength` bytes, with what is in it so far. -/
def store (dest bytes : Str) : Except Stop Str :=
  if dest.length + bytes.length ≤ realLength then .ok (dest ++ bytes) else .error .outside

def pairBytes (pair : Str × Str) : Str := pair.1 ++ 0 :: (pair.2 ++ [0])

/-- These two and what is empty is not sent again. -/
def skipped (varName varValue : Str) : Bool :=
  caseEq varName (ascii "CONTENT_LENGTH") || caseEq varName (ascii "SCGI") || varName.isEmpty ||
    varValue.isEmpty

/-- The loop over the block. A skipped variable leaves out the end test. -/
def environmentLoop : Nat → Str → Str → Except Stop Str
  | 0, _, _ => .error .outside
  | fuel + 1, sptr, dest => do
    let (varName, varValue, sptr) ← readVariable sptr
    if skipped varName varValue then environmentLoop fuel sptr dest
    else
      let dest ← store realLength dest (pairBytes (varName, varValue))
      match sptr.tail with
      | [] => .error .outside
      | c :: sptr => if c = 0 then .ok dest else environmentLoop fuel (c :: sptr) dest

/-- The two pairs that come first. -/
def firstPairs : List (Str × Str) :=
  [(ascii "CONTENT_LENGTH", if request.contentLength.isEmpty then ascii "0" else cstr request.contentLength),
    (ascii "SCGI", ascii "1")]

def buildScgiEnvironmentString (src : Str) : Except Stop Str := do
  let dest ← store realLength [] ((firstPairs request).flatMap pairBytes)
  environmentLoop realLength src.length src dest

/-- `char header[7]`, with the NUL that `sprintf` writes. -/
def sendNetString (data : Str) : Except Stop Str := do
  let header ← store 7 [] (decimal data.length ++ [ch ':', 0])
  return header.dropLast ++ data ++ [ch ',']

def sendPostData : Nat → Str → Str
  | 0, _ => []
  | fuel + 1, inputData =>
    let read := inputData.take realLength
    if read.isEmpty then [] else read ++ sendPostData fuel (inputData.drop realLength)

/-- All bytes that `send` writes to the server of the request. -/
def send (src : Str) : Except Stop Str := do
  let data ← buildScgiEnvironmentString realLength request src
  let netString ← sendNetString data
  if !request.contentLength.isEmpty && request.contentLength = ascii "0" then
    return netString ++ sendPostData realLength (request.inputData.length + 1) request.inputData
  return netString

/-! ## What is to be sent -/

def passed (vars : List Variable) : List Variable := vars.filter fun v => !skipped v.name v.value

def pairsBytes (vars : List Variable) : Str := (passed vars).flatMap fun v => pairBytes v.pair

def content (vars : List Variable) : Str := (firstPairs request).flatMap pairBytes ++ pairsBytes vars

def netstring (data : Str) : Str := decimal data.length ++ ch ':' :: (data ++ [ch ','])

/-- The pairs as a netstring, and the post data with the length that is announced. -/
def WellFormed (vars : List Variable) : Prop :=
  send realLength request (block vars) = .ok (netstring (content request vars) ++ request.inputData) ∧
    atoll request.contentLength = request.inputData.length

/-- The block ends with a variable that is passed on. -/
def EndsPassed (vars : List Variable) : Prop := ∃ v, vars.getLast? = some v ∧ skipped v.name v.value = false

/-! ## The scan -/

section

variable {realLength request} {v : Variable} {vars : List Variable} {dest data : Str}

theorem store_bind {α : Type} (bytes : Str) (f : Str → Except Stop α) : store realLength dest bytes >>= f =
    if (dest ++ bytes).length ≤ realLength then f (dest ++ bytes) else .error .outside := by
  unfold store
  rw [List.length_append]
  split_ifs <;> rfl

theorem pairsBytes_skipped (h : skipped v.name v.value = true) : pairsBytes (v :: vars) = pairsBytes vars := by
  simp [pairsBytes, passed, h]

theorem pairsBytes_passed (h : skipped v.name v.value = false) :
    pairsBytes (v :: vars) = pairBytes v.pair ++ pairsBytes vars := by
  simp [pairsBytes, passed, h]

theorem endsPassed_cons (hvars : vars ≠ []) : EndsPassed (v :: vars) ↔ EndsPassed vars := by
  obtain ⟨v', vars, rfl⟩ := List.exists_cons_of_ne_nil hvars
  unfold EndsPassed
  rw [List.getLast?_cons_cons]

theorem endsPassed_singleton : EndsPassed [v] ↔ skipped v.name v.value = false := by
  unfold EndsPassed
  simp

theorem not_endsPassed_nil : ¬ EndsPassed [] := by
  unfold EndsPassed
  simp

theorem environmentLoop_nul (fuel : Nat) (sptr : Str) :
    environmentLoop realLength fuel (0 :: sptr) dest = environmentLoop realLength fuel sptr dest := by
  cases fuel with
  | zero => rfl
  | succ fuel => rw [environmentLoop, readVariable_nul, environmentLoop]

theorem environmentLoop_short (hshort : v.Short) (fuel : Nat) (vars : List Variable) :
    environmentLoop realLength (fuel + 1) (block (v :: vars)) dest =
      if skipped v.name v.value then environmentLoop realLength fuel (block vars) dest
      else store realLength dest (pairBytes v.pair) >>= fun dest =>
        if vars = [] then .ok dest else environmentLoop realLength fuel (block vars) dest := by
  rw [block_cons, environmentLoop, readVariable_bytes hshort]
  cases vars with
  | nil =>
    change (if skipped v.name v.value then environmentLoop realLength fuel (0 :: block []) dest
      else store realLength dest (pairBytes v.pair) >>= fun dest =>
        if (0 : Byte) = 0 then Except.ok dest else environmentLoop realLength fuel (block []) dest) = _
    rw [environmentLoop_nul]
    rfl
  | cons v' vars =>
    obtain ⟨c, s, hbytes, hc⟩ := v'.bytes_head
    rw [block_cons v', hbytes, List.cons_append]
    change (if skipped v.name v.value then environmentLoop realLength fuel (0 :: c :: (s ++ block vars)) dest
      else store realLength dest (pairBytes v.pair) >>= fun dest =>
        if c = 0 then Except.ok dest else environmentLoop realLength fuel (c :: (s ++ block vars)) dest) = _
    rw [environmentLoop_nul]
    congr 2
    funext dest
    rw [if_neg hc, if_neg (List.cons_ne_nil _ _)]

theorem environmentLoop_eq_ok {fuel : Nat} (hfuel : vars.length ≤ fuel) :
    environmentLoop realLength fuel (block vars) dest = .ok data ↔
      EndsPassed vars ∧ (∀ v ∈ vars, v.Short) ∧ (dest ++ pairsBytes vars).length ≤ realLength ∧
        data = dest ++ pairsBytes vars := by
  induction vars generalizing fuel dest with
  | nil =>
    have hend : environmentLoop realLength fuel (block []) dest = .error .outside := by
      cases fuel <;> rfl
    simp [hend, not_endsPassed_nil]
  | cons v vars ih =>
    obtain ⟨fuel, rfl⟩ := Nat.exists_eq_add_of_le' (by simp at hfuel; omega : 1 ≤ fuel)
    have hfuel' : vars.length ≤ fuel := by simpa using hfuel
    by_cases hshort : v.Short
    · rw [environmentLoop_short hshort]
      simp only [List.forall_mem_cons, hshort, true_and]
      cases hskipped : skipped v.name v.value with
      | true =>
        rw [if_pos rfl, ih hfuel', pairsBytes_skipped hskipped]
        by_cases hvars : vars = []
        · subst hvars
          simp [not_endsPassed_nil, endsPassed_singleton, hskipped]
        · rw [endsPassed_cons hvars]
      | false =>
        rw [if_neg Bool.false_ne_true, pairsBytes_passed hskipped, ← List.append_assoc, store_bind]
        by_cases hvars : vars = []
        · subst hvars
          have hnone : pairsBytes [] = [] := rfl
          rw [if_pos rfl, endsPassed_singleton, hnone, List.append_nil]
          by_cases hroom : (dest ++ pairBytes v.pair).length ≤ realLength
          · rw [if_pos hroom]
            simp only [Except.ok.injEq, hskipped, hroom, List.not_mem_nil, false_imp_iff, implies_true,
              true_and]
            exact eq_comm
          · rw [if_neg hroom]
            simp only [hroom, reduceCtorEq, false_and, and_false]
        · rw [if_neg hvars, endsPassed_cons hvars]
          by_cases hroom : (dest ++ pairBytes v.pair).length ≤ realLength
          · rw [if_pos hroom, ih hfuel']
          · have hfull : ¬ (dest ++ pairBytes v.pair ++ pairsBytes vars).length ≤ realLength := by
              rw [List.length_append]
              omega
            simp only [if_neg hroom, hfull, reduceCtorEq, false_and, and_false]
    · rw [block_cons, environmentLoop, readVariable_tooLong hshort]
      simp only [List.forall_mem_cons, hshort, false_and, and_false, iff_false]
      exact nofun

theorem build_eq_ok : buildScgiEnvironmentString realLength request (block vars) = .ok data ↔
    EndsPassed vars ∧ (∀ v ∈ vars, v.Short) ∧ (content request vars).length ≤ realLength ∧
      data = content request vars := by
  unfold buildScgiEnvironmentString content
  rw [store_bind, List.nil_append]
  by_cases hroom : ((firstPairs request).flatMap pairBytes).length ≤ realLength
  · rw [if_pos hroom, environmentLoop_eq_ok (length_le_length_block vars)]
  · have hfull : ¬ ((firstPairs request).flatMap pairBytes ++ pairsBytes vars).length ≤ realLength := by
      rw [List.length_append]
      omega
    simp only [if_neg hroom, hfull, reduceCtorEq, false_and, and_false]

/-- Five digits are room enough for the colon and the NUL. -/
theorem sendNetString_eq : sendNetString data =
    if data.length < 100000 then .ok (netstring data) else .error .outside := by
  have hdigits : ([] ++ (decimal data.length ++ [ch ':', 0])).length ≤ 7 ↔ data.length < 100000 := by
    have hfive : (decimal data.length).length ≤ 5 ↔ data.length < 100000 :=
      length_decimal_le_iff (by omega)
    rw [← hfive]
    simp
  unfold sendNetString
  rw [store_bind]
  by_cases hlength : data.length < 100000
  · rw [if_pos hlength, if_pos (hdigits.mpr hlength)]
    have hheader : ([] ++ (decimal data.length ++ [ch ':', 0])).dropLast = decimal data.length ++ [ch ':'] := by
      rw [List.nil_append, List.dropLast_append_of_ne_nil (by simp)]
      rfl
    rw [hheader]
    simp [netstring, pure, Except.pure]
  · rw [if_neg hlength, if_neg (mt hdigits.mp hlength)]

end

/-! ## The request as a whole -/

variable {realLength request} {vars : List Variable} {bytes : Str}

def posted (realLength : Nat) (request : Request) : Str :=
  if !request.contentLength.isEmpty && request.contentLength = ascii "0" then
    sendPostData realLength (request.inputData.length + 1) request.inputData
  else []

theorem posted_nil (hinput : request.inputData = []) : posted realLength request = [] := by
  unfold posted
  rw [hinput]
  split_ifs
  · simp [sendPostData]
  · rfl

/-- What is sent behind the netstring has the announced length only where nothing is. -/
theorem inputData_eq_nil (hposted : posted realLength request = request.inputData)
    (hlength : atoll request.contentLength = request.inputData.length) : request.inputData = [] := by
  unfold posted at hposted
  split_ifs at hposted with hzero
  · simp only [Bool.and_eq_true, decide_eq_true_eq] at hzero
    rw [hzero.2] at hlength
    have hnumber : atoll (ascii "0") = 0 := by decide
    rw [hnumber] at hlength
    exact List.length_eq_zero_iff.mp (by exact_mod_cast hlength.symm)
  · exact hposted.symm

theorem send_eq (hends : EndsPassed vars) (hshort : ∀ v ∈ vars, v.Short)
    (hroom : (content request vars).length ≤ realLength) (hlength : (content request vars).length < 100000) :
    send realLength request (block vars) = .ok (netstring (content request vars) ++ posted realLength request) := by
  unfold send posted
  rw [build_eq_ok.mpr ⟨hends, hshort, hroom, rfl⟩]
  change (sendNetString (content request vars) >>= fun _ => _) = _
  rw [sendNetString_eq, if_pos hlength]
  change (if (!request.contentLength.isEmpty && request.contentLength = ascii "0") = true then _ else _) = _
  split_ifs with hzero
  · rfl
  · rw [List.append_nil]
    rfl

theorem fits_of_send (hsend : send realLength request (block vars) = .ok bytes) : EndsPassed vars ∧
    (∀ v ∈ vars, v.Short) ∧ (content request vars).length ≤ realLength ∧
      (content request vars).length < 100000 := by
  unfold send at hsend
  cases hbuild : buildScgiEnvironmentString realLength request (block vars) with
  | error stop =>
    rw [hbuild] at hsend
    exact absurd hsend nofun
  | ok data =>
    obtain ⟨hends, hshort, hroom, rfl⟩ := build_eq_ok.mp hbuild
    refine ⟨hends, hshort, hroom, ?_⟩
    by_contra hlong
    rw [hbuild] at hsend
    change (sendNetString (content request vars) >>= fun _ => _) = _ at hsend
    rw [sendNetString_eq, if_neg hlong] at hsend
    exact absurd hsend nofun

theorem WellFormed.inputData_eq_nil (hwell : WellFormed realLength request vars) : request.inputData = [] := by
  obtain ⟨hends, hshort, hroom, hlength⟩ := fits_of_send hwell.1
  have hsend := hwell.1
  rw [send_eq hends hshort hroom hlength] at hsend
  exact Scgi.inputData_eq_nil (List.append_cancel_left (Except.ok.inj hsend)) hwell.2

/-- **When a request is well formed**: the block ends with a variable that is passed on, all its entries
fit into the buffers of the scan, the pairs fit into the buffer and their length has at most five digits,
and nothing is posted. -/
theorem wellFormed_iff (realLength : Nat) (request : Request) (vars : List Variable) : WellFormed realLength request vars ↔
    EndsPassed vars ∧ (∀ v ∈ vars, v.Short) ∧ (content request vars).length ≤ realLength ∧
      (content request vars).length < 100000 ∧ request.inputData = [] ∧ atoll request.contentLength = 0 := by
  constructor
  · intro hwell
    obtain ⟨hends, hshort, hroom, hlength⟩ := fits_of_send hwell.1
    refine ⟨hends, hshort, hroom, hlength, hwell.inputData_eq_nil, ?_⟩
    rw [hwell.2, hwell.inputData_eq_nil]
    rfl
  · rintro ⟨hends, hshort, hroom, hlength, hinput, hnumber⟩
    refine ⟨?_, ?_⟩
    · rw [send_eq hends hshort hroom hlength, posted_nil hinput, hinput]
    · rw [hnumber, hinput]
      rfl

def queryString : Variable where
  name := ascii "QUERY_STRING"
  value := ascii "b"
  name_eq := by decide
  name_nul := by decide
  value_nul := by decide

/-- A body of three bytes that is announced as it is. -/
theorem not_wellFormed : ¬ ∀ (request : Request) (vars : List Variable),
    atoll request.contentLength = request.inputData.length → WellFormed 81920 request vars := by
  intro hall
  have hwell := hall ⟨ascii "3", ascii "a=b"⟩ [queryString] (by decide)
  exact absurd hwell.inputData_eq_nil (by decide)

end MyServer.Scgi
