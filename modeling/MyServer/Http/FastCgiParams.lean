import MyServer.Http.CgiBlock
import MyServer.Http.FastCgi

/-!
# FastCGI parameters

How the environment becomes the `PARAMS` record of a request (fastcgi.cpp), and how
an application reads the pairs again.
-/

open MyServer.Cgi

namespace MyServer.FastCgi

def FCGIVERSION : Byte := 1
def FCGIPARAMS : Byte := 4

/-- `c[k]` of a `FourChar` that holds `i`. -/
def fourChar (i k : Nat) : Byte := UInt8.ofNat (i / 256 ^ k)

/-! ## Writing -/

/-- The first byte of a long length is taken from `varValueLen`, also for the name. -/
def lengthBytes (len varValueLen : Nat) : Str :=
  if 127 < len then
    [fourChar varValueLen 3 ||| 0x80, fourChar len 2, fourChar len 1, fourChar len 0]
  else [fourChar len 0]

def pairBytes (varName varValue : Str) : Str :=
  lengthBytes varName.length varValue.length ++ lengthBytes varValue.length varValue.length ++ varName ++
    varValue

/-- The loop over the block, with what `dest` has so far. -/
def environmentLoop : Nat → Str → Str → Except Stop Str
  | 0, _, _ => .error .outside
  | fuel + 1, sptr, dest => do
    let (varName, varValue, sptr) ← readVariable sptr
    let dest := dest ++ pairBytes varName varValue
    match sptr.tail with
    | [] => .error .outside
    | c :: sptr => if c = 0 then .ok dest else environmentLoop fuel (c :: sptr) dest

def buildFASTCGIEnvironmentString (src : Str) : Except Stop Str := environmentLoop src.length src []

def generateFcgiHeader (type : Byte) (iRequestId iContentLength : Nat) : Str :=
  [FCGIVERSION, type, UInt8.ofNat (iRequestId >>> 8 &&& 0xff), UInt8.ofNat (iRequestId &&& 0xff),
    UInt8.ofNat (iContentLength >>> 8 &&& 0xff), UInt8.ofNat (iContentLength &&& 0xff), 0, 0]

/-- The socket takes all that it is given. -/
def sendFcgiBody (buffer : Str) (type : Byte) (id : Nat) : Str :=
  generateFcgiHeader type id buffer.length ++ buffer

/-- What is sent of the environment: one record, and the empty one that ends the stream. -/
def paramsStream (body : Str) (id : Nat) : Str :=
  sendFcgiBody body FCGIPARAMS id ++ sendFcgiBody [] FCGIPARAMS id

/-! ## Reading -/

/-- The content of the `PARAMS` records up to an empty one. -/
def readParams : Nat → Str → Option Str
  | 0, _ => none
  | fuel + 1, stream =>
    let header := FcgiHeader.ofBytes stream
    let rest := stream.drop 8
    if stream.length < 8 ∨ header.type ≠ FCGIPARAMS ∨
        rest.length < header.dim + header.paddingLength.toNat then none
    else if header.dim = 0 then some []
    else (readParams fuel (rest.drop (header.dim + header.paddingLength.toNat))).map
      (rest.take header.dim ++ ·)

/-- A length of one byte below 128, or of four bytes. -/
def readLength : Str → Option (Nat × Str)
  | [] => none
  | b :: s =>
    if b.toNat < 128 then some (b.toNat, s)
    else
      match s with
      | b2 :: b1 :: b0 :: s =>
        some ((b.toNat - 128) * 2 ^ 24 + b2.toNat * 2 ^ 16 + b1.toNat * 2 ^ 8 + b0.toNat, s)
      | _ => none

def readPairs : Nat → Str → Option (List (Str × Str))
  | _, [] => some []
  | 0, _ => none
  | fuel + 1, s => do
    let (n, s) ← readLength s
    let (m, s) ← readLength s
    if s.length < n + m then none
    else
      let pairs ← readPairs fuel (s.drop (n + m))
      return (s.take n, (s.drop n).take m) :: pairs

def readEnvironment (stream : Str) : Option (List (Str × Str)) := do
  let content ← readParams stream.length stream
  readPairs content.length content

/-- The application reads the variables of the block, and the header has the length of what is sent
with it. -/
def Carried (vars : List Variable) (id : Nat) : Prop :=
  ∃ body, buildFASTCGIEnvironmentString (block vars) = .ok body ∧
    (FcgiHeader.ofBytes (sendFcgiBody body FCGIPARAMS id)).dim = body.length ∧
      readEnvironment (paramsStream body id) = some (vars.map Variable.pair)

/-! ## The pairs read back -/

def pairsBytes (vars : List Variable) : Str := vars.flatMap fun v => pairBytes v.name v.value

theorem pairsBytes_cons (v : Variable) (vars : List Variable) :
    pairsBytes (v :: vars) = pairBytes v.name v.value ++ pairsBytes vars := rfl

theorem toNat_fourChar (i k : Nat) : (fourChar i k).toNat = i / 256 ^ k % 256 := UInt8.toNat_ofNat'

theorem readLength_lengthBytes {len valueLen : Nat} (hlen : len < 2499)
    (hvalue : len ≤ 127 ∨ len = valueLen) (rest : Str) :
    readLength (lengthBytes len valueLen ++ rest) = some (len, rest) := by
  unfold lengthBytes
  split_ifs with hlong
  · obtain rfl := hvalue.resolve_left (by omega)
    have hzero : fourChar len 3 = 0 := by
      unfold fourChar
      rw [Nat.div_eq_of_lt (by omega)]
      rfl
    rw [hzero]
    have hmark : ((0 : Byte) ||| 0x80).toNat = 128 := by decide
    simp only [List.cons_append, List.nil_append, readLength, hmark, toNat_fourChar]
    rw [if_neg (by omega)]
    congr 2
    omega
  · have hbyte : (fourChar len 0).toNat = len := by
      rw [toNat_fourChar]
      omega
    simp only [List.cons_append, List.nil_append, readLength, hbyte]
    rw [if_pos (by omega)]

theorem pairBytes_ne_nil (varName varValue : Str) : pairBytes varName varValue ≠ [] := by
  unfold pairBytes lengthBytes
  split_ifs <;> simp

theorem length_le_length_pairsBytes (vars : List Variable) : vars.length ≤ (pairsBytes vars).length := by
  induction vars with
  | nil => exact Nat.zero_le _
  | cons v vars ih =>
    have hpair := List.length_pos_iff.mpr (pairBytes_ne_nil v.name v.value)
    rw [pairsBytes_cons, List.length_append, List.length_cons]
    omega

theorem readPairs_pairsBytes {vars : List Variable} (hshort : ∀ v ∈ vars, v.Short) {fuel : Nat}
    (hfuel : vars.length ≤ fuel) :
    readPairs fuel (pairsBytes vars) = some (vars.map Variable.pair) := by
  induction vars generalizing fuel with
  | nil => cases fuel <;> rfl
  | cons v vars ih =>
    obtain ⟨hv, hvars⟩ := List.forall_mem_cons.mp hshort
    obtain ⟨fuel, rfl⟩ := Nat.exists_eq_add_of_le' (by simp at hfuel; omega : 1 ≤ fuel)
    have hne : pairsBytes (v :: vars) ≠ [] := by
      rw [pairsBytes_cons]
      simp [pairBytes_ne_nil]
    have hread : readPairs (fuel + 1) (pairsBytes (v :: vars)) = (do
        let (n, s) ← readLength (pairsBytes (v :: vars))
        let (m, s) ← readLength s
        if s.length < n + m then none
        else
          let pairs ← readPairs fuel (s.drop (n + m))
          return (s.take n, (s.drop n).take m) :: pairs) := by
      obtain ⟨c, s, hcs⟩ := List.exists_cons_of_ne_nil hne
      rw [hcs]
      rfl
    rw [hread, pairsBytes_cons, pairBytes]
    simp only [List.append_assoc]
    rw [readLength_lengthBytes (by have := hv.1; omega) (Or.inl (by have := hv.1; omega))]
    change (readLength (lengthBytes v.value.length v.value.length ++
      (v.name ++ (v.value ++ pairsBytes vars))) >>= fun r => _) = _
    rw [readLength_lengthBytes hv.2 (Or.inr rfl)]
    have hsplit : (v.name ++ (v.value ++ pairsBytes vars)).drop (v.name.length + v.value.length) =
        pairsBytes vars := by
      rw [← List.append_assoc, ← List.length_append, List.drop_left]
    simp only [Option.bind_eq_bind, Option.bind_some]
    rw [if_neg (by simp only [List.length_append]; omega), hsplit, ih hvars (by simp at hfuel; omega)]
    simp [Variable.pair]

/-! ## What is built -/

theorem environmentLoop_block {vars : List Variable} (hvars : vars ≠ []) {fuel : Nat}
    (hfuel : vars.length ≤ fuel) (dest : Str) :
    environmentLoop fuel (block vars) dest =
      if ∀ v ∈ vars, v.Short then .ok (dest ++ pairsBytes vars) else .error .tooLong := by
  induction vars generalizing fuel dest with
  | nil => exact absurd rfl hvars
  | cons v vars ih =>
    obtain ⟨fuel, rfl⟩ := Nat.exists_eq_add_of_le' (by simp at hfuel; omega : 1 ≤ fuel)
    rw [block_cons, environmentLoop]
    by_cases hv : v.Short
    · rw [readVariable_bytes hv]
      change (match block vars with
        | [] => (Except.error Stop.outside : Except Stop Str)
        | c :: sptr => if c = 0 then Except.ok (dest ++ pairBytes v.name v.value)
          else environmentLoop fuel (c :: sptr) (dest ++ pairBytes v.name v.value)) = _
      cases vars with
      | nil => simp [block, entries, pairsBytes, hv]
      | cons v' vars =>
        obtain ⟨c, s, hbytes, hc⟩ := v'.bytes_head
        have hrest := ih (List.cons_ne_nil v' vars) (by simp at hfuel; simp; omega)
          (dest ++ pairBytes v.name v.value)
        have hblock : block (v' :: vars) = c :: (s ++ block vars) := by
          rw [block_cons, hbytes, List.cons_append]
        rw [hblock] at hrest ⊢
        dsimp only
        rw [if_neg hc, hrest, pairsBytes_cons v, List.append_assoc]
        simp only [List.forall_mem_cons, hv, true_and]
    · rw [readVariable_tooLong hv, if_neg fun h => hv (h v List.mem_cons_self)]
      rfl

theorem build_block (vars : List Variable) : buildFASTCGIEnvironmentString (block vars) =
    if vars = [] then .error .outside
    else if ∀ v ∈ vars, v.Short then .ok (pairsBytes vars) else .error .tooLong := by
  split_ifs with hnil hshort
  · subst hnil
    rfl
  · unfold buildFASTCGIEnvironmentString
    rw [environmentLoop_block hnil (length_le_length_block vars), if_pos hshort, List.nil_append]
  · unfold buildFASTCGIEnvironmentString
    rw [environmentLoop_block hnil (length_le_length_block vars), if_neg hshort]

/-! ## The records -/

/-- The length in the header is the length of the content modulo 65536. -/
theorem header_dim (content : Str) (type : Byte) (id : Nat) (more : Str) :
    (FcgiHeader.ofBytes (sendFcgiBody content type id ++ more)).dim = content.length % 65536 := by
  change (UInt8.ofNat (content.length >>> 8 &&& 0xff)).toNat <<< 8 |||
    (UInt8.ofNat (content.length &&& 0xff)).toNat = _
  have hmask : ∀ n : Nat, n &&& 0xff = n % 256 := fun n => Nat.and_two_pow_sub_one_eq_mod n 8
  rw [hmask, hmask, Nat.shiftRight_eq_div_pow, UInt8.toNat_ofNat', UInt8.toNat_ofNat',
    Nat.mod_eq_of_lt (by omega : content.length / 2 ^ 8 % 256 < 2 ^ 8),
    Nat.mod_eq_of_lt (by omega : content.length % 256 < 2 ^ 8),
    ← Nat.shiftLeft_add_eq_or_of_lt (by omega : content.length % 256 < 2 ^ 8), Nat.shiftLeft_eq]
  omega

theorem readParams_send {fuel : Nat} {content : Str} (hcontent : content.length < 65536) (id : Nat)
    (more : Str) : readParams (fuel + 1) (sendFcgiBody content FCGIPARAMS id ++ more) =
      if content = [] then some [] else (readParams fuel more).map (content ++ ·) := by
  have hdim := header_dim content FCGIPARAMS id more
  rw [Nat.mod_eq_of_lt hcontent] at hdim
  have hrest : (sendFcgiBody content FCGIPARAMS id ++ more).drop 8 = content ++ more := rfl
  have hlength : (sendFcgiBody content FCGIPARAMS id ++ more).length = 8 + (content ++ more).length := by
    simp only [sendFcgiBody, generateFcgiHeader, List.length_append, List.length_cons, List.length_nil]
    omega
  have htype : (FcgiHeader.ofBytes (sendFcgiBody content FCGIPARAMS id ++ more)).type = FCGIPARAMS := rfl
  have hpadding : (FcgiHeader.ofBytes
      (sendFcgiBody content FCGIPARAMS id ++ more)).paddingLength.toNat = 0 := rfl
  rw [readParams]
  rw [hdim, hrest, htype, hpadding, hlength, Nat.add_zero, List.drop_left, List.take_left, if_neg]
  · simp only [List.length_eq_zero_iff]
  · rw [List.length_append]
    simp only [not_or, not_lt, ne_eq, not_true, not_false_eq_true, true_and]
    omega

theorem readParams_stream {body : Str} (hbody : body.length < 65536) (id : Nat) :
    readParams (paramsStream body id).length (paramsStream body id) = some body := by
  have hlength : (paramsStream body id).length = body.length + 14 + 1 + 1 := by
    unfold paramsStream sendFcgiBody generateFcgiHeader
    simp
  have hempty : readParams (body.length + 14 + 1) (sendFcgiBody [] FCGIPARAMS id) = some [] := by
    have h := @readParams_send (body.length + 14) [] (by simp) id []
    rwa [List.append_nil, if_pos rfl] at h
  rw [hlength, paramsStream, readParams_send hbody, hempty]
  split_ifs with hnil
  · rw [hnil]
  · simp

theorem Carried.length_lt {vars : List Variable} {id : Nat} (hcarried : Carried vars id) :
    vars ≠ [] ∧ (∀ v ∈ vars, v.Short) ∧ (pairsBytes vars).length < 65536 := by
  obtain ⟨body, hbuild, hdim, -⟩ := hcarried
  rw [build_block] at hbuild
  split_ifs at hbuild with hnil hshort
  obtain rfl := Except.ok.inj hbuild
  refine ⟨hnil, hshort, ?_⟩
  have hmod := header_dim (pairsBytes vars) FCGIPARAMS id []
  rw [List.append_nil, hdim] at hmod
  omega

/-- **When the parameters come through**: the block has an entry, all of them fit into the buffers of
the scan, and the record is short enough for the length in its header. -/
theorem carried_iff (vars : List Variable) (id : Nat) : Carried vars id ↔
    vars ≠ [] ∧ (∀ v ∈ vars, v.Short) ∧ (pairsBytes vars).length < 65536 := by
  refine ⟨Carried.length_lt, ?_⟩
  rintro ⟨hnil, hshort, hlength⟩
  have hmod := header_dim (pairsBytes vars) FCGIPARAMS id []
  rw [List.append_nil, Nat.mod_eq_of_lt hlength] at hmod
  have hbuild : buildFASTCGIEnvironmentString (block vars) = .ok (pairsBytes vars) := by
    rw [build_block, if_neg hnil, if_pos hshort]
  refine ⟨_, hbuild, hmod, ?_⟩
  unfold readEnvironment
  rw [readParams_stream hlength]
  exact readPairs_pairsBytes hshort (length_le_length_pairsBytes vars)

/-- A variable whose value is a run of `n` bytes. -/
def longVariable (n : Nat) : Variable where
  name := ascii "X"
  value := List.replicate n (ch 'a')
  name_eq := by decide
  name_nul := by decide
  value_nul h := absurd (List.eq_of_mem_replicate h) (by decide)

/-- Thirty values of 2400 bytes are more than a record can hold. -/
theorem not_carried : ¬ ∀ (vars : List Variable) (id : Nat), vars ≠ [] → (∀ v ∈ vars, v.Short) →
    Carried vars id := by
  intro hall
  have hshort : (longVariable 2400).Short := by
    refine ⟨by decide, ?_⟩
    simp only [longVariable, List.length_replicate]
    omega
  have hvars : ∀ v ∈ List.replicate 30 (longVariable 2400), v.Short := by
    intro v hv
    rwa [List.eq_of_mem_replicate hv]
  have hlength := (hall (List.replicate 30 (longVariable 2400)) 1 (by simp) hvars).length_lt.2.2
  have hpair : 2400 ≤ (pairBytes (longVariable 2400).name (longVariable 2400).value).length := by
    simp only [pairBytes, longVariable, List.length_append, List.length_replicate]
    omega
  have hsum : (pairsBytes (List.replicate 30 (longVariable 2400))).length =
      30 * (pairBytes (longVariable 2400).name (longVariable 2400).value).length := by
    unfold pairsBytes
    rw [List.length_flatMap, List.map_replicate, List.sum_replicate, smul_eq_mul]
  omega

end MyServer.FastCgi
