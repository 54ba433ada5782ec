import MyServer.Http.HeaderText

/-!
# Which headers fit

The text has to be shorter than the buffer. Nothing stops the writing when it is not.
-/

namespace MyServer.HeaderText

/-- The text of that length that a NUL ends. -/
structure IsText (memory : Nat → Byte) (length : Nat) : Prop where
  text : ∀ i < length, memory i ≠ 0
  ends : memory length = 0

structure Rendered (o : Output) : Prop where
  inside : o.inside = true
  isText : IsText o.memory o.pos

def Piece.size : Piece → Nat
  | .copy src | .name src => (cstr src).length % 2 ^ 32
  | .sprintf text => text.length
  | .number value => (cstr (decimal value.toNat)).length % 2 ^ 32

def size (pieces : List Piece) : Nat := (pieces.map Piece.size).sum

/-- What is written has no NUL, and a number has fewer than twelve digits. -/
def Piece.Clean : Piece → Prop
  | .sprintf text => (0 : Byte) ∉ text
  | _ => True

def Piece.Short : Piece → Prop
  | .number value => (decimal value.toNat).length < 12
  | _ => True

/-! ## One copy -/

section Copy

variable {memory : Nat → Byte} {o : Output}

theorem room_of_lt {pos : Nat} (h : pos < MAX) : room pos = MAX - pos := by
  unfold room MAX at *
  rw [← Int.ofNat_sub h.le, BitVec.ofInt_natCast, BitVec.toNat_ofNat]
  omega

theorem store_of_lt {dst i : Nat} (bytes : Str) (h : i < dst) : store memory dst bytes i = memory i := by
  unfold store
  rw [if_neg (by omega)]

theorem store_inside {dst i : Nat} {bytes : Str} (hle : dst ≤ i) (h : i - dst < bytes.length) :
    store memory dst bytes i = bytes[i - dst] := by
  unfold store
  rw [if_pos (by omega), List.getD_eq_getElem?_getD, List.getElem?_eq_getElem h, Option.getD_some]

theorem strlcpy_of_lt {dst i size : Nat} (src : Str) (h : i < dst) :
    strlcpy memory dst src size i = memory i := by
  unfold strlcpy
  dsimp only
  split_ifs
  · rfl
  · exact store_of_lt _ h
  · exact store_of_lt _ h

theorem strlcpy_eq {dst size : Nat} {src : Str} (hsrc : cstr src ≠ []) (hsize : 0 < size) :
    strlcpy memory dst src size =
      store memory dst ((cstr src).take (min (cstr src).length (size - 1)) ++ [0]) := by
  have hpos := List.length_pos_iff.mpr hsrc
  unfold strlcpy
  dsimp only
  rw [if_neg (by omega)]
  congr 3
  split_ifs <;> omega

/-- What is copied, short of the last place. -/
theorem strlcpy_inside {dst i size : Nat} {src : Str} (hle : dst ≤ i)
    (hret : i - dst < (cstr src).length) (hsize : i - dst < size - 1) :
    strlcpy memory dst src size i ≠ 0 := by
  have hlen : i - dst < ((cstr src).take (min (cstr src).length (size - 1))).length := by
    rw [List.length_take]
    omega
  rw [strlcpy_eq (List.length_pos_iff.mp (by omega)) (by omega),
    store_inside hle (by rw [List.length_append]; omega), List.getElem_append_left hlen,
    List.getElem_take]
  exact ne_zero_of_mem_cstr (List.getElem_mem _)

theorem strlcpy_ends {dst size : Nat} {src : Str} (hsrc : cstr src ≠ []) (hsize : 0 < size) :
    strlcpy memory dst src size (dst + min (cstr src).length (size - 1)) = 0 := by
  have hlen : ((cstr src).take (min (cstr src).length (size - 1))).length =
      min (cstr src).length (size - 1) := by
    rw [List.length_take]
    omega
  rw [strlcpy_eq hsrc hsize, store_inside (by omega) (by rw [List.length_append, hlen]; simp),
    List.getElem_append_right (by rw [hlen]; omega)]
  simp

theorem toUpper_eq_zero (b : Byte) : toUpper b = 0 ↔ b = 0 := by
  unfold toUpper
  split_ifs with h
  · constructor
    · intro hzero
      have hto := congrArg UInt8.toNat hzero
      rw [UInt8.toNat_sub_of_le _ _ (by rw [UInt8.le_iff_toNat_le]; exact le_trans (by decide) h.1)] at hto
      simp at hto
      omega
    · rintro rfl
      exact absurd h.1 (by decide)
  · rfl

theorem capitaliseLoop_eq_zero (steps old_pos i : Nat) (memory : Nat → Byte) :
    Output.capitaliseLoop old_pos steps memory i = 0 ↔ memory i = 0 := by
  induction steps generalizing old_pos memory with
  | zero => rfl
  | succ steps ih =>
    unfold Output.capitaliseLoop
    rw [ih]
    split_ifs
    · by_cases hi : i = old_pos + 1
      · subst hi
        rw [Function.update_self, toUpper_eq_zero]
      · rw [Function.update_of_ne hi]
    · rfl

end Copy

/-! ## One piece -/

def Filled (o : Output) : Prop := ∀ i < o.pos, o.memory i ≠ 0

section Piece

variable {o : Output}

theorem pos_write (piece : Piece) (o : Output) : (piece.write o).pos = o.pos + piece.size := by
  cases piece <;> rfl

theorem Filled.copy (h : Filled o) (src : Str) (hfits : o.pos + (cstr src).length % 2 ^ 32 < MAX) :
    Filled (o.copy src) := by
  intro i hi
  change strlcpy o.memory o.pos src (room o.pos) i ≠ 0
  change i < o.pos + (cstr src).length % 2 ^ 32 at hi
  rcases Nat.lt_or_ge i o.pos with hlt | hle
  · rw [strlcpy_of_lt _ hlt]
    exact h i hlt
  · have hmod := Nat.mod_le (cstr src).length (2 ^ 32)
    apply strlcpy_inside hle (by omega)
    rw [room_of_lt (by omega)]
    omega

theorem Filled.capitalise (h : Filled o) (old_pos steps : Nat) (inside : Bool) :
    Filled { o with
      memory := Output.capitaliseLoop old_pos steps
        (Function.update o.memory old_pos (toUpper (o.memory old_pos)))
      inside := inside } := by
  intro i hi
  dsimp only at hi ⊢
  rw [Ne, capitaliseLoop_eq_zero]
  by_cases hold : i = old_pos
  · rw [hold, Function.update_self, toUpper_eq_zero, ← hold]
    exact h i hi
  · rw [Function.update_of_ne hold]
    exact h i hi

theorem Filled.sprintf (h : Filled o) {text : Str} (htext : (0 : Byte) ∉ text) :
    Filled (o.sprintf text) := by
  intro i hi
  change store o.memory o.pos (text ++ [0]) i ≠ 0
  change i < o.pos + text.length at hi
  rcases Nat.lt_or_ge i o.pos with hlt | hle
  · rw [store_of_lt _ hlt]
    exact h i hlt
  · have hlen : i - o.pos < text.length := by omega
    rw [store_inside hle (by rw [List.length_append]; omega), List.getElem_append_left hlen]
    intro hzero
    exact htext (hzero ▸ List.getElem_mem hlen)

theorem Filled.write (h : Filled o) {piece : Piece} (hclean : piece.Clean)
    (hfits : o.pos + piece.size < MAX) : Filled (piece.write o) := by
  cases piece with
  | copy src => exact h.copy src hfits
  | sprintf text => exact h.sprintf hclean
  | name src => exact (h.copy src hfits).capitalise _ _ _
  | number value =>
    intro i hi
    exact h.copy (decimal value.toNat) hfits i hi

theorem inside_write (hinside : o.inside = true) {piece : Piece} (hshort : piece.Short)
    (hfits : o.pos + piece.size < MAX) : (piece.write o).inside = true := by
  have hpos : o.pos < MAX := by omega
  cases piece with
  | copy src => simp [Piece.write, Output.copy, hinside, hpos]
  | sprintf text =>
    have hend : o.pos + text.length < MAX := hfits
    simp [Piece.write, Output.sprintf, hinside, hend]
  | name src =>
    have hend : o.pos + (cstr src).length % 2 ^ 32 < MAX := hfits
    simpa [Piece.write, Output.copyName, Output.copy, hinside, hpos] using hend
  | number value =>
    have hdigits : (decimal value.toNat).length < 12 := hshort
    simp [Piece.write, Output.copyNumber, Output.copy, hinside, hpos, hdigits]

theorem of_inside_write {piece : Piece} (h : (piece.write o).inside = true) :
    o.inside = true ∧ o.pos < MAX ∧ piece.Short := by
  cases piece with
  | copy src =>
    simp only [Piece.write, Output.copy, Bool.and_eq_true, decide_eq_true_eq] at h
    exact ⟨h.1, h.2, trivial⟩
  | sprintf text =>
    simp only [Piece.write, Output.sprintf, Bool.and_eq_true, decide_eq_true_eq] at h
    exact ⟨h.1, by omega, trivial⟩
  | name src =>
    simp only [Piece.write, Output.copyName, Output.copy, Bool.and_eq_true, decide_eq_true_eq] at h
    exact ⟨h.1.1, h.1.2, trivial⟩
  | number value =>
    simp only [Piece.write, Output.copyNumber, Output.copy, Bool.and_eq_true, decide_eq_true_eq] at h
    exact ⟨h.1.1, h.1.2, h.2⟩

end Piece

/-! ## All pieces -/

theorem pos_writes (pieces : List Piece) (o : Output) : (write pieces o).pos = o.pos + size pieces := by
  induction pieces generalizing o with
  | nil => rfl
  | cons piece pieces ih =>
    change (write pieces (piece.write o)).pos = o.pos + (piece.size + size pieces)
    rw [ih, pos_write, Nat.add_assoc]

theorem writes_good {pieces : List Piece} {o : Output} (hfilled : Filled o) (hinside : o.inside = true)
    (hpieces : ∀ piece ∈ pieces, piece.Clean ∧ piece.Short) (hfits : o.pos + size pieces < MAX) :
    Filled (write pieces o) ∧ (write pieces o).inside = true := by
  induction pieces generalizing o with
  | nil => exact ⟨hfilled, hinside⟩
  | cons piece pieces ih =>
    obtain ⟨⟨hclean, hshort⟩, hrest⟩ := List.forall_mem_cons.mp hpieces
    change o.pos + (piece.size + size pieces) < MAX at hfits
    apply ih (hfilled.write hclean (by omega)) (inside_write hinside hshort (by omega)) hrest
    rw [pos_write]
    omega

theorem of_inside_writes {pieces : List Piece} {o : Output} (h : (write pieces o).inside = true) :
    o.inside = true ∧ ∀ piece ∈ pieces, piece.Short := by
  induction pieces generalizing o with
  | nil => exact ⟨h, by simp⟩
  | cons piece pieces ih =>
    obtain ⟨hwritten, hshort⟩ := ih h
    obtain ⟨hinside, -, hfirst⟩ := of_inside_write hwritten
    exact ⟨hinside, List.forall_mem_cons.mpr ⟨hfirst, hshort⟩⟩

theorem isText_unique {memory : Nat → Byte} {n i : Nat} (h : IsText memory n) (hi : memory i = 0) :
    n ≤ i := by
  by_contra hlt
  exact h.text i (by omega) hi

/-- **A header that ends with an empty line** is rendered exactly when its text is shorter than the
buffer, and no number bursts its own. -/
theorem rendered_write_iff {pieces : List Piece} (hclean : ∀ piece ∈ pieces, piece.Clean)
    (memory : Nat → Byte) : Rendered (write (pieces ++ [.copy crlf]) ⟨memory, 0, true⟩) ↔
      size (pieces ++ [.copy crlf]) < MAX ∧ ∀ piece ∈ pieces, piece.Short := by
  have hcrlf : (Piece.copy crlf).size = 2 := by decide
  have hsize : size (pieces ++ [.copy crlf]) = size pieces + 2 := by
    simp [size, hcrlf]
  have hwrite : write (pieces ++ [.copy crlf]) ⟨memory, 0, true⟩ =
      (write pieces ⟨memory, 0, true⟩).copy crlf := List.foldl_append ..
  have hpos : (write pieces ⟨memory, 0, true⟩).pos = size pieces := by
    rw [pos_writes, Nat.zero_add]
  have hlength : (cstr crlf).length = 2 := by decide
  have hends : ∀ {p : Nat}, p < MAX →
      strlcpy (write pieces ⟨memory, 0, true⟩).memory p crlf (room p)
        (p + min 2 (MAX - p - 1)) = 0 := by
    intro p hp
    rw [room_of_lt hp, ← hlength]
    exact strlcpy_ends (by decide) (by omega)
  rw [hwrite, hsize]
  constructor
  · intro h
    obtain ⟨hinside, hlt, -⟩ := @of_inside_write _ (.copy crlf) h.inside
    refine ⟨?_, (of_inside_writes hinside).2⟩
    by_contra hbig
    -- the last NUL is inside the buffer, and before the position
    have hzero := isText_unique h.isText (hends hlt)
    change (write pieces ⟨memory, 0, true⟩).pos + (cstr crlf).length % 2 ^ 32 ≤ _ at hzero
    rw [hlength] at hzero
    omega
  · rintro ⟨hfits, hshort⟩
    have hend : (write pieces ⟨memory, 0, true⟩).pos + 2 < MAX := by omega
    obtain ⟨hfilled, hinside⟩ := @writes_good pieces ⟨memory, 0, true⟩
      (fun i hi => absurd hi (Nat.not_lt_zero i)) rfl
      (fun piece hpiece => ⟨hclean piece hpiece, hshort piece hpiece⟩) (by rw [Nat.zero_add]; omega)
    refine ⟨@inside_write _ hinside (.copy crlf) trivial (by rwa [hcrlf]), ?_, ?_⟩
    · apply hfilled.copy
      rwa [hlength]
    · have hzero := hends (by omega : (write pieces ⟨memory, 0, true⟩).pos < MAX)
      rw [Nat.min_eq_left (by omega)] at hzero
      exact hzero

/-! ## The two headers -/

theorem zero_notMem_decimalInt (i : Int) : (0 : Byte) ∉ decimalInt i := by
  intro h
  cases i with
  | ofNat n => exact absurd (isDigit_of_mem_decimal h) (by decide)
  | negSucc n =>
    rcases List.mem_cons.mp h with h | h
    · exact absurd h (by decide)
    · exact absurd (isDigit_of_mem_decimal h) (by decide)

theorem number_short_iff (value : BitVec 64) (hneg : value.toInt < 0) : ¬ (Piece.number value).Short := by
  have hbig : 2 ^ 63 ≤ value.toNat := by
    rw [BitVec.toInt_eq_toNat_cond] at hneg
    split_ifs at hneg with h
    · omega
    · omega
  intro hshort
  have hlt : value.toNat < 10 ^ 11 := (length_decimal_le_iff (by omega)).mp (Nat.lt_succ_iff.mp hshort)
  omega

theorem status_clean (messages : Int → Str) (response : HttpResponseHeader) :
    ∀ piece ∈ response.status messages, piece.Clean := by
  have htext : ∀ s : Str, (0 : Byte) ∉ s → ∀ code : Int, (0 : Byte) ∉
      cstr response.ver ++ [ch ' '] ++ decimalInt code ++ [ch ' '] ++ s ++ crlf := by
    intro s hs code
    simp only [List.mem_append, not_or]
    exact ⟨⟨⟨⟨⟨zero_notMem_cstr _, by decide⟩, zero_notMem_decimalInt _⟩, by decide⟩, hs⟩, by decide⟩
  unfold HttpResponseHeader.status
  split
  · intro piece hpiece
    dsimp only at hpiece
    generalize (if response.errorType = [] then messages response.httpStatus
      else response.errorType) = errorType at hpiece
    rcases List.mem_cons.mp hpiece with rfl | hpiece
    · exact htext _ (zero_notMem_cstr _) _
    · split_ifs at hpiece
      · rw [List.mem_singleton.mp hpiece]
        simp only [Piece.Clean, List.mem_append, not_or]
        exact ⟨⟨by decide, zero_notMem_cstr _⟩, by decide⟩
      · exact absurd hpiece List.not_mem_nil
  · rw [List.forall_mem_singleton]
    simp only [Piece.Clean, List.mem_append, not_or]
    exact ⟨⟨zero_notMem_cstr _, by decide⟩, by decide⟩

theorem responseRendered_iff (messages : Int → Str) (memory : Nat → Byte)
    (response : HttpResponseHeader) : Rendered (buildHTTPResponseHeader messages memory response) ↔
      size (responsePieces messages response) < MAX := by
  let front := response.status messages ++ response.length ++
    response.other.flatMap (fun e => e.2.response) ++ [.copy (ascii "Accept-Ranges: bytes" ++ crlf)]
  have hpieces : responsePieces messages response = front ++ [.copy crlf] := by
    simp [responsePieces, front]
  have hstatus : ∀ piece ∈ response.status messages, piece.Short := by
    unfold HttpResponseHeader.status
    dsimp only
    split_ifs <;> simp [Piece.Short]
  have hfront : ∀ piece ∈ front, piece.Clean ∧ piece.Short := by
    intro piece hpiece
    simp only [front, List.mem_append, List.mem_flatMap, Entry.response, List.mem_cons,
      List.not_mem_nil, or_false] at hpiece
    rcases hpiece with ((hpiece | hpiece) | ⟨e, -, rfl | rfl | rfl | rfl⟩) | rfl
    · exact ⟨status_clean messages response piece hpiece, hstatus piece hpiece⟩
    · unfold HttpResponseHeader.length at hpiece
      split_ifs at hpiece
      · simp only [List.mem_cons, List.not_mem_nil, or_false] at hpiece
        rcases hpiece with rfl | rfl | rfl <;> exact ⟨trivial, trivial⟩
      · exact absurd hpiece List.not_mem_nil
    all_goals exact ⟨trivial, trivial⟩
  unfold buildHTTPResponseHeader
  rw [hpieces, rendered_write_iff fun piece h => (hfront piece h).1]
  exact and_iff_left fun piece h => (hfront piece h).2

theorem bound_short_iff (value : BitVec 64) :
    (∀ piece ∈ bound value, piece.Short) ↔ 0 ≤ value.toInt := by
  unfold bound
  split_ifs with h
  · simp only [List.forall_mem_singleton]
    exact iff_of_false (number_short_iff value h) (by omega)
  · simpa using h

theorem range_short_iff (request : HttpRequestHeader) :
    (∀ piece ∈ request.range, piece.Short) ↔
      (request.rangeType ≠ [] → 0 ≤ request.rangeByteBegin.toInt ∧ 0 ≤ request.rangeByteEnd.toInt) := by
  unfold HttpRequestHeader.range
  split_ifs with h
  · simp [h]
  · simp only [List.forall_mem_append, bound_short_iff]
    simp [h, Piece.Short]

theorem clean_of_mem_bound {value : BitVec 64} {piece : Piece} (h : piece ∈ bound value) :
    piece.Clean := by
  unfold bound at h
  split_ifs at h
  · rw [List.mem_singleton.mp h]
    trivial
  · exact absurd h List.not_mem_nil

/-- Outside the Range line everything is copied. -/
theorem request_copies (request : HttpRequestHeader) :
    ∀ piece ∈ requestPieces request, piece ∈ request.range ∨ ∃ src, piece = .copy src := by
  have hfield : ∀ name value, ∀ piece ∈ field name value,
      piece ∈ request.range ∨ ∃ src, piece = .copy src := by
    intro name value
    unfold field
    split_ifs <;> simp
  unfold requestPieces
  simp only [List.forall_mem_append]
  refine ⟨⟨⟨⟨⟨⟨⟨by simp, ?_⟩, by simp⟩, hfield _ _⟩, hfield _ _⟩, fun piece h => Or.inl h⟩, ?_⟩, by simp⟩
  · split_ifs <;> simp
  · intro piece hpiece
    obtain ⟨e, -, hpiece⟩ := List.mem_flatMap.mp hpiece
    simp only [List.mem_cons, List.not_mem_nil, or_false] at hpiece
    rcases hpiece with rfl | rfl | rfl | rfl <;> exact Or.inr ⟨_, rfl⟩

theorem range_clean (request : HttpRequestHeader) : ∀ piece ∈ request.range, piece.Clean := by
  unfold HttpRequestHeader.range
  split_ifs
  · simp
  · simp only [List.forall_mem_append]
    refine ⟨⟨⟨⟨?_, fun piece => clean_of_mem_bound⟩, ?_⟩, fun piece => clean_of_mem_bound⟩, ?_⟩
    all_goals simp [Piece.Clean]

theorem requestRendered_iff (memory : Nat → Byte) (request : HttpRequestHeader) :
    Rendered (buildHTTPRequestHeader memory request) ↔ size (requestPieces request) < MAX ∧
      (request.rangeType ≠ [] → 0 ≤ request.rangeByteBegin.toInt ∧ 0 ≤ request.rangeByteEnd.toInt) := by
  obtain ⟨front, hfront⟩ : ∃ front, requestPieces request = front ++ [.copy crlf] := ⟨_, rfl⟩
  have hmem : ∀ piece ∈ front, piece ∈ requestPieces request := by
    intro piece hpiece
    rw [hfront]
    exact List.mem_append_left _ hpiece
  have hclean : ∀ piece ∈ front, piece.Clean := by
    intro piece hpiece
    rcases request_copies request piece (hmem piece hpiece) with hrange | ⟨src, rfl⟩
    · exact range_clean request piece hrange
    · trivial
  have hshort : (∀ piece ∈ front, piece.Short) ↔ ∀ piece ∈ request.range, piece.Short := by
    constructor
    · intro h piece hpiece
      have hin : piece ∈ requestPieces request := by
        unfold requestPieces
        simp only [List.mem_append, hpiece, or_true, true_or]
      rw [hfront] at hin
      rcases List.mem_append.mp hin with hin | hin
      · exact h piece hin
      · rw [List.mem_singleton.mp hin]
        trivial
    · intro h piece hpiece
      rcases request_copies request piece (hmem piece hpiece) with hrange | ⟨src, rfl⟩
      · exact h piece hrange
      · trivial
  unfold buildHTTPRequestHeader
  rw [hfront, rendered_write_iff hclean, hshort, range_short_iff]

/-- **When a header stays in its buffer**, and the number that is returned is the length of its text. -/
theorem rendered_iff (messages : Int → Str) (memory : Nat → Byte) :
    (∀ response, Rendered (buildHTTPResponseHeader messages memory response) ↔
      size (responsePieces messages response) < MAX) ∧
    ∀ request, Rendered (buildHTTPRequestHeader memory request) ↔ size (requestPieces request) < MAX ∧
      (request.rangeType ≠ [] →
        0 ≤ request.rangeByteBegin.toInt ∧ 0 ≤ request.rangeByteEnd.toInt) :=
  ⟨responseRendered_iff messages memory, requestRendered_iff memory⟩

def responseVia (value : Str) : HttpResponseHeader where
  httpStatus := 200
  ver := ascii "HTTP/1.1"
  contentLength := []
  errorType := []
  other := [(ascii "via", ⟨ascii "via", value⟩)]

theorem le_size_responseVia (messages : Int → Str) (value : Str) :
    (Piece.copy value).size ≤ size (responsePieces messages (responseVia value)) := by
  apply List.single_le_sum (fun _ _ => Nat.zero_le _)
  apply List.mem_map_of_mem
  simp [responsePieces, responseVia, Entry.response]

/-- A field that is longer than the buffer. -/
theorem not_rendered : ¬ ∀ (messages : Int → Str) (memory : Nat → Byte),
    (∀ response, Rendered (buildHTTPResponseHeader messages memory response)) ∧
      ∀ request, Rendered (buildHTTPRequestHeader memory request) := by
  intro h
  have hrendered := (h (fun _ => []) fun _ => 0).1 (responseVia (List.replicate 9000 (ch 'a')))
  have hfits := (responseRendered_iff _ _ _).mp hrendered
  have hle := le_size_responseVia (fun _ => []) (List.replicate 9000 (ch 'a'))
  -- for any length: the kernel would count the 9000 characters
  have hvalue : ∀ n < 2 ^ 32, (Piece.copy (List.replicate n (ch 'a'))).size = n := by
    intro n hn
    change (cstr (List.replicate n (ch 'a'))).length % 2 ^ 32 = n
    rw [cstr, List.takeWhile_replicate, if_pos (by decide), List.length_replicate, Nat.mod_eq_of_lt hn]
  rw [hvalue 9000 (by norm_num)] at hle
  unfold MAX at hfits
  omega

end MyServer.HeaderText
