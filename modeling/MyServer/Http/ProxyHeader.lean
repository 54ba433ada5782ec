import MyServer.Http.ResponseHeader
import MyServer.Lib.Fragments

/-!
# The header of an upstream response

The loop of `Proxy::flushToClient` that reads until a header is found. It looks at the whole buffer, so
also at what an earlier use has left there.
-/

open MyServer.HeaderLines MyServer.ResponseHeader

namespace MyServer.Proxy

/-- The variables of the loop, what the socket has still to give, and the texts that were parsed so
far. `headerLength` is not initialised. -/
structure HeaderRead where
  buffer : Nat → Byte
  read : Nat
  response : HttpResponseHeader
  headerLength : Option Nat
  socket : List Str
  parsed : List Str

namespace HeaderRead

/-- `recv` into what is left of the buffer. -/
def recv (realLength : Nat) (s : HeaderRead) : Str × HeaderRead :=
  let (bytes, socket) := Fragments.take (realLength - s.read) s.socket
  let buffer := fun i => if s.read ≤ i ∧ i < s.read + bytes.length then bytes.getD (i - s.read) 0 else s.buffer i
  (bytes, { s with buffer, read := s.read + bytes.length, socket })

def initBuffer (s : HeaderRead) (headerLength : Nat) : Str :=
  (List.range (s.read - headerLength)).map fun i => s.buffer (headerLength + i)

end HeaderRead

/-- `none` is out of turns, or no behaviour. -/
def headerLoop (realLength : Nat) : Nat → HeaderRead → Option HeaderRead
  | 0, _ => none
  | fuel + 1, s =>
    let (bytes, s) := s.recv realLength
    match buildHTTPResponseHeaderStruct s.buffer s.response with
    | .notValid => if bytes = [] then some s else headerLoop realLength fuel s
    | .parsed _ _ .nullPointer => none
    | .parsed input nbtr (.returned validResponse response) =>
      let s := { s with response, headerLength := some nbtr, parsed := s.parsed ++ [input] }
      if validResponse ∨ bytes = [] then some s else headerLoop realLength fuel s

def flushStart (stale : Nat → Byte) (response : HttpResponseHeader) (socket : List Str) : HeaderRead where
  buffer := stale
  read := 0
  response := response.free
  headerLength := none
  socket := socket
  parsed := []

/-- The header is parsed, once and nothing else is, and what comes behind it is the body. -/
def Found (header : Header) (body : Str) (response : HttpResponseHeader) (r : HeaderRead) : Prop :=
  parse header.bytes response.free = .returned true r.response ∧ r.parsed = [header.bytes] ∧
    r.headerLength = some header.bytes.length ∧ header.bytes.length ≤ r.read ∧
      r.initBuffer header.bytes.length ++ r.socket.flatten = body

/-- The loop ends with what it should find. -/
def HeaderFound (realLength : Nat) (stale : Nat → Byte) (response : HttpResponseHeader) (header : Header)
    (body : Str) (socket : List Str) : Prop :=
  ∃ turns r, (∀ fuel, turns ≤ fuel →
    headerLoop realLength fuel (flushStart stale response socket) = some r) ∧ Found header body response r

/-! ## The build -/

theorem build_of_accepted {input : Nat → Byte} {i : Nat} (h : Accepted input i)
    (response : HttpResponseHeader) : buildHTTPResponseHeaderStruct input response =
      .parsed (cstr ((List.range (i + 3)).map input)) (i + 3)
        (parse (cstr ((List.range (i + 3)).map input)) response) := by
  obtain ⟨j, hj, -⟩ := h.2.1
  have hzero : input 0 ≠ 0 := by
    intro hzero
    have hfirst := h.1.2 0 (by omega)
    simp [stops, hzero] at hfirst
  unfold buildHTTPResponseHeaderStruct
  rw [if_neg hzero, validHTTPResponse_eq_some.mpr ⟨i, h, rfl, rfl⟩]

theorem build_of_not {input : Nat → Byte} (h : ∀ i, ¬ Accepted input i) (response : HttpResponseHeader) :
    buildHTTPResponseHeaderStruct input response = .notValid := by
  unfold buildHTTPResponseHeaderStruct
  split_ifs
  · rfl
  · cases hvalid : validHTTPResponse input with
    | none => rfl
    | some v =>
      obtain ⟨i, hi, -⟩ := validHTTPResponse_eq_some.mp hvalid
      exact absurd hi (h i)

/-! ## Runs -/

section

variable {realLength : Nat} {s r : HeaderRead}

theorem read_le {fuel : Nat} (h : headerLoop realLength fuel s = some r) (hs : s.read ≤ realLength) :
    r.read ≤ realLength := by
  induction fuel generalizing s with
  | zero => exact absurd h nofun
  | succ fuel ih =>
    have hrecv : (s.recv realLength).2.read ≤ realLength := by
      have hle := Fragments.take_length_le (realLength - s.read) s.socket
      change s.read + (Fragments.take (realLength - s.read) s.socket).1.length ≤ realLength
      omega
    rw [headerLoop] at h
    dsimp only at h
    split at h
    · split_ifs at h
      · cases h
        exact hrecv
      · exact ih h hrecv
    · exact absurd h nofun
    · split_ifs at h
      · cases h
        exact hrecv
      · exact ih h hrecv

theorem parsed_le {fuel : Nat} (h : headerLoop realLength fuel s = some r) : s.parsed <+: r.parsed := by
  induction fuel generalizing s with
  | zero => exact absurd h nofun
  | succ fuel ih =>
    have hrecv : (s.recv realLength).2.parsed = s.parsed := rfl
    rw [headerLoop] at h
    dsimp only at h
    split at h
    · split_ifs at h
      · cases h
        exact List.prefix_rfl
      · exact hrecv ▸ ih h
    · exact absurd h nofun
    · split_ifs at h
      · cases h
        exact List.prefix_append _ _
      · exact (List.prefix_append _ _).trans (ih h)

end

/-! ## What is in the buffer -/

/-- The buffer with the first `k` bytes of the answer. -/
def view (stream : Str) (stale : Nat → Byte) (k : Nat) : Nat → Byte := memory (stream.take k) stale

section

variable {stream : Str} {stale : Nat → Byte} {header : Header} {body : Str} {k : Nat}

theorem view_of_le (hstream : stream = header.bytes ++ body) (hk : k ≤ header.bytes.length) :
    view stream stale k = memory (header.bytes.take k) stale := by
  unfold view
  rw [hstream, List.take_append_of_le_length hk]

theorem view_of_ge (hstream : stream = header.bytes ++ body) (hk : header.bytes.length ≤ k) :
    view stream stale k = memory header.bytes (view stream stale k) := by
  funext i
  unfold view memory
  by_cases hi : i < header.bytes.length
  · rw [hstream, List.take_append, List.take_of_length_le hk, List.getD_eq_getElem?_getD,
      List.getD_eq_getElem?_getD, List.getElem?_append_left hi, List.getElem?_eq_getElem hi]
    rfl
  · simp only [List.getD_eq_getElem?_getD, List.getElem?_eq_none (by omega : header.bytes.length ≤ i)]
    rfl

end

/-- `k` bytes of the answer were read, and nothing was parsed. -/
structure ReadSoFar (stream : Str) (stale : Nat → Byte) (response : HttpResponseHeader) (k : Nat)
    (s : HeaderRead) : Prop where
  buffer : s.buffer = view stream stale k
  read : s.read = k
  response : s.response = response.free
  le : k ≤ stream.length
  socket : s.socket.flatten = stream.drop k
  proper : Fragments.Proper s.socket
  parsed : s.parsed = []

namespace ReadSoFar

variable {stream : Str} {stale : Nat → Byte} {response : HttpResponseHeader} {k realLength : Nat}
  {s : HeaderRead}

theorem start {socket : List Str} (hproper : Fragments.Proper socket) (hstream : socket.flatten = stream) :
    ReadSoFar stream stale response 0 (flushStart stale response socket) where
  buffer := by
    funext i
    simp [view, memory, flushStart]
  read := rfl
  response := rfl
  le := Nat.zero_le _
  socket := hstream
  proper := hproper
  parsed := rfl

theorem recv (h : ReadSoFar stream stale response k s) :
    ReadSoFar stream stale response (k + (s.recv realLength).1.length) (s.recv realLength).2 := by
  have hsplit := Fragments.take_flatten (realLength - s.read) s.socket
  set bytes := (Fragments.take (realLength - s.read) s.socket).1 with hbytes
  have hrecv : (s.recv realLength).1 = bytes := rfl
  rw [h.socket] at hsplit
  refine ⟨?_, ?_, h.response, ?_, ?_, h.proper.take _, h.parsed⟩
  · funext i
    change (if s.read ≤ i ∧ i < s.read + bytes.length then bytes.getD (i - s.read) 0 else s.buffer i) = _
    rw [h.read, h.buffer, hrecv]
    unfold view memory
    simp only [List.getD_eq_getElem?_getD, List.getElem?_take]
    rcases Nat.lt_or_ge i k with hik | hik
    · rw [if_neg (by omega), if_pos hik, if_pos (by omega)]
    · rcases Nat.lt_or_ge i (k + bytes.length) with hib | hib
      · have hget : stream[i]? = bytes[i - k]? := by
          have hdrop := @List.getElem?_drop _ stream k (i - k)
          rw [← hsplit, List.getElem?_append_left (by omega), Nat.add_sub_cancel' hik] at hdrop
          exact hdrop.symm
        rw [if_pos ⟨hik, hib⟩, if_pos hib, hget, List.getElem?_eq_getElem (by omega)]
        rfl
      · rw [if_neg (by omega), if_neg (by omega), if_neg (by omega)]
  · change s.read + bytes.length = _
    rw [h.read, hrecv]
  · have hle := h.le
    have hlength := congrArg List.length hsplit
    rw [List.length_append, List.length_drop] at hlength
    rw [hrecv]
    omega
  · rw [hrecv, ← List.drop_drop, ← hsplit, List.drop_left]
    rfl

end ReadSoFar

/-! ## When the header is found -/

section

variable {stream : Str} {stale : Nat → Byte} {response : HttpResponseHeader} {k realLength : Nat}
  {s r : HeaderRead} {header : Header} {body : Str}

def HeaderFits (header : Header) : Prop :=
  header.fields ≠ [] ∧ header.size ≤ 4160 ∧ ∀ line ∈ linesOf header.bytes, LineFits line

/-- A header that is there as a whole is scanned to its end, if it is accepted. -/
theorem build_memory (header : Header) (behind : Nat → Byte) (response : HttpResponseHeader) :
    buildHTTPResponseHeaderStruct (memory header.bytes behind) response =
      if header.fields ≠ [] ∧ header.size ≤ 4160 then
        .parsed header.bytes header.bytes.length (parse header.bytes response)
      else .notValid := by
  split_ifs with h
  · have hlen := (inside_stops header.inside behind).1
    have haccepted := (accepted_iff header behind (header.bytes.length - 3)).mpr ⟨by omega, h⟩
    have hplace : header.bytes.length - 3 + 3 = header.bytes.length := by omega
    rw [build_of_accepted haccepted, hplace, range_map_memory, cstr_of_notMem header.zero_notMem]
  · exact build_of_not (fun i hi => h ((accepted_iff header behind i).mp hi).2) response

/-- A buffer that has the whole header is scanned to its end, if it is accepted. -/
theorem build_whole (hstream : stream = header.bytes ++ body) (hk : header.bytes.length ≤ k)
    (hfields : header.fields ≠ []) (hsize : header.size ≤ 4160) :
    buildHTTPResponseHeaderStruct (view stream stale k) response =
      .parsed header.bytes header.bytes.length (parse header.bytes response) := by
  rw [view_of_ge hstream hk, build_memory, if_pos ⟨hfields, hsize⟩]

theorem build_whole_not (hstream : stream = header.bytes ++ body) (hk : header.bytes.length ≤ k)
    (hnot : ¬ (header.fields ≠ [] ∧ header.size ≤ 4160)) :
    buildHTTPResponseHeaderStruct (view stream stale k) response = .notValid := by
  rw [view_of_ge hstream hk, build_memory, if_neg hnot]

/-- A header that is not accepted as a whole is never parsed. -/
theorem never_parsed (hstream : stream = header.bytes ++ body) (h : ReadSoFar stream stale response k s)
    (hk : header.bytes.length ≤ k) (hnot : ¬ (header.fields ≠ [] ∧ header.size ≤ 4160)) {fuel : Nat}
    (hrun : headerLoop realLength fuel s = some r) : r.parsed = [] := by
  induction fuel generalizing k s with
  | zero => exact absurd hrun nofun
  | succ fuel ih =>
    have hrecv := @ReadSoFar.recv _ _ _ _ realLength _ h
    rw [headerLoop] at hrun
    dsimp only at hrun
    rw [hrecv.buffer, build_whole_not hstream (by omega) hnot] at hrun
    dsimp only at hrun
    split_ifs at hrun
    · cases hrun
      exact hrecv.parsed
    · exact ih hrecv (by omega) hrun

theorem initBuffer_eq (stream : Str) (stale : Nat → Byte) {m : Nat} (hm : m ≤ stream.length) (n : Nat) :
    (List.range (m - n)).map (fun i => view stream stale m (n + i)) = (stream.take m).drop n := by
  apply List.ext_getElem
  · simp [hm]
  · intro i hi hi'
    rw [List.length_map, List.length_range] at hi
    rw [List.getElem_map, List.getElem_range, List.getElem_drop, view, memory,
      List.getD_eq_getElem?_getD, List.getElem?_eq_getElem (by rw [List.length_take]; omega)]
    rfl

theorem cut_pos {socket : List Str} (hproper : Fragments.Proper socket) {j : Nat}
    (hcut : Fragments.CutAt socket j) : 0 < j := by
  obtain ⟨front, back, rfl, hfront, rfl⟩ := hcut
  obtain ⟨f, front, rfl⟩ := List.exists_cons_of_ne_nil hfront
  have hf := List.length_pos_iff.mpr (hproper f List.mem_cons_self)
  rw [List.flatten_cons, List.length_append]
  omega

/-- A read that gets less than it asks for has taken a fragment. -/
theorem cut_of_short {socket : List Str} (hne : socket ≠ []) {n : Nat}
    (hshort : (Fragments.take n socket).1.length < n) :
    Fragments.CutAt socket (Fragments.take n socket).1.length := by
  obtain ⟨f, fs, rfl⟩ := List.exists_cons_of_ne_nil hne
  have htake : (Fragments.take n (f :: fs)).1 = f.take n := rfl
  rw [htake, List.length_take] at hshort ⊢
  refine ⟨[f], fs, rfl, by simp, ?_⟩
  simp
  omega

theorem headerLoop_notValid {fuel : Nat} (hbytes : (s.recv realLength).1 ≠ [])
    (hbuild : buildHTTPResponseHeaderStruct (s.recv realLength).2.buffer (s.recv realLength).2.response =
      .notValid) : headerLoop realLength (fuel + 1) s = headerLoop realLength fuel (s.recv realLength).2 := by
  rw [headerLoop]
  dsimp only
  rw [hbuild]
  exact if_neg hbytes

/-- The last read brings the end of the header. -/
theorem found_whole (hstream : stream = header.bytes ++ body) (h : ReadSoFar stream stale response k s)
    (hbytes : (s.recv realLength).1 ≠ [])
    (hwhole : header.bytes.length ≤ k + (s.recv realLength).1.length) :
    (∃ turns r, (∀ fuel, turns ≤ fuel → headerLoop realLength fuel s = some r) ∧
      Found header body response r) ↔ HeaderFits header := by
  have hrecv := @ReadSoFar.recv _ _ _ _ realLength _ h
  set m := k + (s.recv realLength).1.length with hm
  by_cases hscan : header.fields ≠ [] ∧ header.size ≤ 4160
  · have hbuild := @build_whole stream stale response.free m header body hstream hwhole hscan.1 hscan.2
    rw [← hrecv.buffer, ← hrecv.response] at hbuild
    constructor
    · rintro ⟨turns, r, -, hparse, -⟩
      exact ⟨hscan.1, hscan.2, (parse_iff _ _).mp ⟨_, hparse⟩⟩
    · rintro ⟨-, -, hlines⟩
      obtain ⟨response', hparse⟩ := (parse_iff header.bytes response.free).mpr hlines
      refine ⟨1, { (s.recv realLength).2 with
        response := response', headerLength := some header.bytes.length
        parsed := (s.recv realLength).2.parsed ++ [header.bytes] }, fun fuel hfuel => ?_, ?_⟩
      · obtain ⟨fuel, rfl⟩ := Nat.exists_eq_add_of_le' hfuel
        rw [headerLoop]
        dsimp only
        rw [hbuild, hrecv.response, hparse]
        exact if_pos (Or.inl rfl)
      · refine ⟨hparse, ?_, rfl, ?_, ?_⟩
        · rw [hrecv.parsed]
          rfl
        · rw [hrecv.read]
          exact hwhole
        · unfold HeaderRead.initBuffer
          dsimp only
          rw [hrecv.read, hrecv.buffer, initBuffer_eq stream stale hrecv.le, hrecv.socket,
            ← List.drop_append_of_le_length (by rw [List.length_take_of_le hrecv.le]; exact hwhole),
            List.take_append_drop, hstream, List.drop_left]
  · refine iff_of_false ?_ fun hfits => hscan ⟨hfits.1, hfits.2.1⟩
    rintro ⟨turns, r, hrun, -, hparsed, -⟩
    have hbuild := @build_whole_not stream stale response.free m header body hstream hwhole hscan
    rw [← hrecv.buffer, ← hrecv.response] at hbuild
    have h1 := hrun (turns + 1) (Nat.le_succ _)
    rw [headerLoop_notValid hbytes hbuild] at h1
    rw [never_parsed hstream hrecv hwhole hscan h1] at hparsed
    exact absurd hparsed nofun

/-- A read that does not bring the end, and whose buffer looks like a header. -/
theorem not_found_of_accepted (h : ReadSoFar stream stale response k s)
    (hpart : k + (s.recv realLength).1.length < header.bytes.length)
    {i : Nat} (haccepted : Accepted (view stream stale (k + (s.recv realLength).1.length)) i) :
    ¬ ∃ turns r, (∀ fuel, turns ≤ fuel → headerLoop realLength fuel s = some r) ∧
      Found header body response r := by
  have hrecv := @ReadSoFar.recv _ _ _ _ realLength _ h
  rintro ⟨turns, r, hrun, hfound⟩
  have h1 := hrun (turns + 1) (Nat.le_succ _)
  have hbuild := build_of_accepted haccepted response.free
  rw [← hrecv.buffer, ← hrecv.response] at hbuild
  rw [headerLoop] at h1
  dsimp only at h1
  rw [hbuild] at h1
  set text := cstr ((List.range (i + 3)).map (s.recv realLength).2.buffer) with htext
  cases hparse : parse text (s.recv realLength).2.response with
  | nullPointer =>
    rw [hparse] at h1
    exact absurd h1 nofun
  | returned valid response' =>
    rw [hparse] at h1
    dsimp only at h1
    split_ifs at h1 with hend
    · obtain rfl := Option.some.inj h1
      have hle := hfound.2.2.2.1
      rw [hrecv.read] at hle
      omega
    · -- The text that was refused is the header only if the header is refused.
      have hfront := parsed_le h1
      rw [hrecv.parsed, hfound.2.1, List.nil_append] at hfront
      have hsame : text = header.bytes := by simpa using hfront
      have hreturned := hfound.1
      rw [← hrecv.response, ← hsame, hparse] at hreturned
      injection hreturned with hvalid
      exact hend (Or.inl (by rw [hvalid]))

/-- From any point of the header the rest of it is found, if no read ends where the buffer looks like a
header. -/
theorem found_from_iff (hstream : stream = header.bytes ++ body) (hroom : header.bytes.length ≤ realLength)
    (h : ReadSoFar stream stale response k s) (hk : k < header.bytes.length) :
    (∃ turns r, (∀ fuel, turns ≤ fuel → headerLoop realLength fuel s = some r) ∧
        Found header body response r) ↔
      HeaderFits header ∧ ∀ j, Fragments.CutAt s.socket j → k + j < header.bytes.length →
        ∀ i, ¬ Accepted (view stream stale (k + j)) i := by
  induction hN : header.bytes.length - k using Nat.strong_induction_on generalizing k s with
  | _ N ih =>
    subst hN
    have hrecv := @ReadSoFar.recv _ _ _ _ realLength _ h
    have hflat : s.socket.flatten ≠ [] := by
      rw [h.socket, Ne, List.drop_eq_nil_iff, hstream, List.length_append]
      omega
    have hasked : realLength - s.read = realLength - k := by rw [h.read]
    have hbytes : (s.recv realLength).1 ≠ [] := by
      apply Fragments.take_ne_nil h.proper _ hflat
      omega
    have hpos := List.length_pos_iff.mpr hbytes
    have hbefore : ∀ j, Fragments.CutAt s.socket j → (s.recv realLength).1.length ≤ j :=
      fun j hcut => Fragments.take_length_le_of_cut hcut
    by_cases hwhole : header.bytes.length ≤ k + (s.recv realLength).1.length
    · rw [found_whole hstream h hbytes hwhole]
      refine (and_iff_left ?_).symm
      intro j hcut hj
      have := hbefore j hcut
      omega
    · have hcut : Fragments.CutAt s.socket (s.recv realLength).1.length := by
        apply cut_of_short
        · rintro hnil
          rw [hnil] at hflat
          exact hflat rfl
        · change (s.recv realLength).1.length < _
          omega
      by_cases haccepted : ∃ i, Accepted (view stream stale (k + (s.recv realLength).1.length)) i
      · obtain ⟨i, hi⟩ := haccepted
        refine iff_of_false (not_found_of_accepted h (by omega) hi) fun hall => ?_
        exact hall.2 _ hcut (by omega) i hi
      · have hbuild := build_of_not (fun i hi => haccepted ⟨i, hi⟩) response.free
        rw [← hrecv.buffer, ← hrecv.response] at hbuild
        have hturn : ∀ fuel, headerLoop realLength (fuel + 1) s =
            headerLoop realLength fuel (s.recv realLength).2 :=
          fun fuel => headerLoop_notValid hbytes hbuild
        have hnext := ih _ (by omega) hrecv (by omega) rfl
        have hcuts : ∀ j, 0 < j → (Fragments.CutAt (s.recv realLength).2.socket j ↔
            Fragments.CutAt s.socket ((s.recv realLength).1.length + j)) :=
          fun j hj => Fragments.cutAt_take _ hj
        refine Iff.trans ⟨?_, ?_⟩ (hnext.trans (and_congr_right fun _ => ⟨?_, ?_⟩))
        · rintro ⟨turns, r, hrun, hfound⟩
          exact ⟨turns, r, fun fuel hfuel => hturn fuel ▸ hrun (fuel + 1) (by omega), hfound⟩
        · rintro ⟨turns, r, hrun, hfound⟩
          refine ⟨turns + 1, r, fun fuel hfuel => ?_, hfound⟩
          obtain ⟨fuel, rfl⟩ := Nat.exists_eq_add_of_le' (by omega : 1 ≤ fuel)
          rw [hturn]
          exact hrun fuel (by omega)
        · intro hall j hj hlt i hi
          rcases Nat.eq_or_lt_of_le (hbefore j hj) with heq | hlt'
          · exact haccepted ⟨i, heq ▸ hi⟩
          · obtain ⟨d, hd, rfl⟩ : ∃ d, 0 < d ∧ j = (s.recv realLength).1.length + d :=
              ⟨j - (s.recv realLength).1.length, by omega, by omega⟩
            refine hall d ((hcuts d hd).mpr hj) (by omega) i ?_
            rwa [Nat.add_assoc]
        · intro hall j hj hlt i hi
          have hpos' := cut_pos hrecv.proper hj
          refine hall _ ((hcuts j hpos').mp hj) (by omega) i ?_
          rwa [← Nat.add_assoc]

end

section

variable {realLength : Nat} {stale : Nat → Byte} {response : HttpResponseHeader} {header : Header}
  {body : Str} {socket : List Str}

theorem found_iff_of_room (hproper : Fragments.Proper socket) (hstream : socket.flatten = header.bytes ++ body)
    (hroom : header.bytes.length ≤ realLength) :
    HeaderFound realLength stale response header body socket ↔
      HeaderFits header ∧ ∀ k, Fragments.CutAt socket k → k < header.bytes.length →
        ∀ i, ¬ Accepted (memory (header.bytes.take k) stale) i := by
  have hlen := (inside_stops header.inside stale).1
  have h := found_from_iff rfl hroom (@ReadSoFar.start _ stale response _ hproper hstream)
    (by omega)
  refine h.trans (and_congr_right fun _ => ⟨fun hall k hcut hk i hi => ?_, fun hall k hcut hk i hi => ?_⟩)
  · refine hall k hcut (by omega) i ?_
    rwa [Nat.zero_add, view_of_le rfl hk.le]
  · rw [Nat.zero_add] at hk hi
    rw [view_of_le rfl hk.le] at hi
    exact hall k hcut hk i hi

/-- **When the header is found, however it arrives**: it has a field, its lines with their CRs are not
more than 4160 bytes, the parser refuses no line of it, it fits into the buffer, and no read ends inside
of it where what an earlier use has left in the buffer makes it look like a header. -/
theorem headerFound_iff (hproper : Fragments.Proper socket) (hstream : socket.flatten = header.bytes ++ body) :
    HeaderFound realLength stale response header body socket ↔
      HeaderFits header ∧ header.bytes.length ≤ realLength ∧
        ∀ k, Fragments.CutAt socket k → k < header.bytes.length →
          ∀ i, ¬ Accepted (memory (header.bytes.take k) stale) i := by
  by_cases hroom : header.bytes.length ≤ realLength
  · rw [found_iff_of_room hproper hstream hroom, and_iff_right hroom]
  · refine iff_of_false ?_ fun h => hroom h.2.1
    rintro ⟨turns, r, hrun, -, -, -, hle, -⟩
    have hread := read_le (hrun turns le_rfl) (Nat.zero_le _)
    omega

end

/-! ## A short answer -/

def okHeader : Header where
  first := ascii "HTTP/1.1 200 OK"
  fields := [ascii "Server: x"]
  line l hl := by
    rcases List.mem_pair.mp hl with rfl | rfl <;> decide

def emptyResponse : HttpResponseHeader := ⟨200, [], [], [], fun _ => none⟩

theorem okHeader_fits : HeaderFits okHeader := by
  refine ⟨List.cons_ne_nil _ _, by decide, ?_⟩
  have hlines : linesOf okHeader.bytes = [(ascii "Server", some (ascii "x"))] := by decide
  rw [hlines, List.forall_mem_singleton]
  exact Or.inr (Or.inr ⟨by decide, fun value hvalue => by cases hvalue; decide⟩)

/-- All in one read. -/
theorem okHeader_found : HeaderFound 81920 (fun _ => 0) emptyResponse okHeader (ascii "ab")
    [okHeader.bytes ++ ascii "ab"] := by
  refine (headerFound_iff (List.forall_mem_singleton.mpr (by decide)) (by simp)).mpr
    ⟨okHeader_fits, by decide, ?_⟩
  rintro k ⟨front, back, hsplit, hfront, rfl⟩ hk
  obtain ⟨f, front, rfl⟩ := List.exists_cons_of_ne_nil hfront
  obtain rfl := (List.cons.inj hsplit).1
  rw [List.flatten_cons, List.length_append, List.length_append] at hk
  omega

/-- The first read ends inside the field, in a buffer that is clean. -/
theorem not_headerFound : ¬ ∀ (header : Header) (body : Str) (socket : List Str), HeaderFits header →
    header.bytes.length ≤ 81920 → Fragments.Proper socket → socket.flatten = header.bytes ++ body →
      HeaderFound 81920 (fun _ => 0) emptyResponse header body socket := by
  intro hall
  have hproper : Fragments.Proper [okHeader.bytes.take 20, okHeader.bytes.drop 20 ++ ascii "ab"] := by
    rintro f hf
    rcases List.mem_pair.mp hf with rfl | rfl <;> decide
  have hstream : [okHeader.bytes.take 20, okHeader.bytes.drop 20 ++ ascii "ab"].flatten =
      okHeader.bytes ++ ascii "ab" := by decide
  have hfound := hall okHeader (ascii "ab") _ okHeader_fits (by decide) hproper hstream
  refine ((found_iff_of_room hproper hstream (by decide)).mp hfound).2 20 ?_ (by decide) 20 ?_
  · exact ⟨[okHeader.bytes.take 20], [_], rfl, List.cons_ne_nil _ _, by decide⟩
  · exact ⟨⟨by decide, by decide⟩, ⟨16, by decide, by decide⟩, by decide⟩

end MyServer.Proxy
