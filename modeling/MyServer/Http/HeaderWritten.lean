import MyServer.Http.HeaderFits
import MyServer.Http.HeaderLines

/-!
# The text that is written

As long as there is room for it, what stands in the buffer is the texts of the pieces, one behind the
other.
-/

namespace MyServer.HeaderText

/-- What was written so far. -/
def Output.text (o : Output) : Str := (List.range o.pos).map o.memory

/-- The first letter and every letter behind a dash in upper case. -/
def capitalise : Bool → Str → Str
  | _, [] => []
  | upper, c :: rest => (if upper then toUpper c else c) :: capitalise (c = ch '-') rest

def Piece.text : Piece → Str
  | .copy src => cstr src
  | .sprintf text => text
  | .name src => capitalise true (cstr src)
  | .number value => decimal value.toNat

def text (pieces : List Piece) : Str := pieces.flatMap Piece.text

theorem text_pieces_append (a b : List Piece) : text (a ++ b) = text a ++ text b := List.flatMap_append

/-! ## Letters -/

theorem toUpper_eq_dash (b : Byte) : toUpper b = ch '-' ↔ b = ch '-' := by
  unfold toUpper
  split_ifs with h
  · have hupper : (b - 32).toNat = b.toNat - 32 :=
      UInt8.toNat_sub_of_le _ _ (UInt8.le_iff_toNat_le.mpr (le_trans (by decide) h.1))
    refine iff_of_false ?_ ?_
    · intro heq
      have := congrArg UInt8.toNat heq
      rw [hupper] at this
      have hdash : (ch '-').toNat = 45 := by decide
      omega
    · rintro rfl
      exact absurd h.1 (by decide)
  · rfl

theorem toLower_toUpper (b : Byte) : toLower (toUpper b) = toLower b := by
  unfold toUpper
  split_ifs with h
  · have hupper : (b - 32).toNat = b.toNat - 32 :=
      UInt8.toNat_sub_of_le _ _ (UInt8.le_iff_toNat_le.mpr (le_trans (by decide) h.1))
    unfold toLower
    rw [if_pos (by rw [hupper]; omega), if_neg (by omega), UInt8.sub_add_cancel]
  · rfl

@[simp] theorem length_capitalise (upper : Bool) (s : Str) : (capitalise upper s).length = s.length := by
  induction s generalizing upper with
  | nil => rfl
  | cons c s ih => simp [capitalise, ih]

theorem map_toLower_capitalise (upper : Bool) (s : Str) :
    (capitalise upper s).map toLower = s.map toLower := by
  induction s generalizing upper with
  | nil => rfl
  | cons c s ih =>
    rw [capitalise, List.map_cons, List.map_cons, ih]
    congr 1
    split_ifs
    · exact toLower_toUpper c
    · rfl

/-! ## Places of the memory -/

/-- The text stands there. -/
def Reads (memory : Nat → Byte) (dst : Nat) (text : Str) : Prop :=
  ∀ i (h : i < text.length), memory (dst + i) = text[i]

section

variable {memory : Nat → Byte} {dst : Nat}

theorem reads_cons {c : Byte} {text : Str} :
    Reads memory dst (c :: text) ↔ memory dst = c ∧ Reads memory (dst + 1) text := by
  constructor
  · intro h
    refine ⟨h 0 (by simp), fun i hi => ?_⟩
    have := h (i + 1) (by simpa using hi)
    rwa [← Nat.add_assoc, Nat.add_right_comm] at this
  · rintro ⟨hfirst, hrest⟩ i hi
    cases i with
    | zero => exact hfirst
    | succ i =>
      rw [← Nat.add_assoc, Nat.add_right_comm]
      exact hrest i (by simpa using hi)

theorem reads_store (bytes : Str) (n : Nat) : Reads (store memory dst bytes) dst (bytes.take n) := by
  intro i hi
  rw [List.length_take] at hi
  have hsub : dst + i - dst = i := Nat.add_sub_cancel_left dst i
  rw [store_inside (Nat.le_add_right dst i) (by omega)]
  simp only [hsub, List.getElem_take]

theorem capitaliseLoop_of_le (steps : Nat) {old_pos i : Nat} (h : i ≤ old_pos) (memory : Nat → Byte) :
    Output.capitaliseLoop old_pos steps memory i = memory i := by
  induction steps generalizing old_pos memory with
  | zero => rfl
  | succ steps ih =>
    unfold Output.capitaliseLoop
    rw [ih (by omega)]
    split_ifs
    · exact Function.update_of_ne (by omega) _ _
    · rfl

/-- The loop stands at a letter that is done, and behind it is what it has still to do. -/
theorem reads_capitaliseLoop {c : Byte} {rest : Str} {memory : Nat → Byte} {old_pos : Nat}
    (hfirst : memory old_pos = c) (hrest : Reads memory (old_pos + 1) rest) :
    Reads (Output.capitaliseLoop old_pos (rest.length + 1) memory) (old_pos + 1)
      (capitalise (c = ch '-') rest) := by
  induction rest generalizing c memory old_pos with
  | nil => exact fun i hi => absurd hi (Nat.not_lt_zero i)
  | cons d rest ih =>
    obtain ⟨hd, hrest⟩ := reads_cons.mp hrest
    rw [List.length_cons, Output.capitaliseLoop, capitalise, reads_cons, hfirst]
    have hdash : ∀ b : Byte, (b = if c = ch '-' then toUpper d else d) →
        (decide (b = ch '-')) = decide (d = ch '-') := by
      rintro _ rfl
      split_ifs
      · exact decide_eq_decide.mpr (toUpper_eq_dash d)
      · rfl
    -- The letter behind a dash is changed, and nothing that comes behind it.
    have hmemory : ∀ memory' : Nat → Byte, memory' (old_pos + 1) = (if c = ch '-' then toUpper d else d) →
        (∀ i, old_pos + 1 < i → memory' i = memory i) →
        Output.capitaliseLoop (old_pos + 1) (rest.length + 1) memory' (old_pos + 1) =
            (if c = ch '-' then toUpper d else d) ∧
          Reads (Output.capitaliseLoop (old_pos + 1) (rest.length + 1) memory') (old_pos + 1 + 1)
            (capitalise (d = ch '-') rest) := by
      intro memory' hhere hbehind
      refine ⟨by rw [capitaliseLoop_of_le _ le_rfl, hhere], ?_⟩
      have hnext := @ih _ memory' (old_pos + 1) rfl fun i hi => by
        rw [hbehind _ (by omega)]
        exact hrest i hi
      rwa [hdash _ hhere] at hnext
    simp only [decide_eq_true_eq]
    by_cases hc : c = ch '-'
    · rw [if_pos hc, if_pos hc, hd]
      refine (hmemory _ ?_ fun i hi => Function.update_of_ne (by omega) _ _).imp_left fun h => ?_
      · rw [Function.update_self, if_pos hc]
      · rwa [if_pos hc] at h
    · rw [if_neg hc, if_neg hc]
      refine (hmemory _ ?_ fun i _ => rfl).imp_left fun h => ?_
      · rw [hd, if_neg hc]
      · rwa [if_neg hc] at h

end

/-! ## One piece -/

section

variable {o : Output}

theorem length_text (o : Output) : o.text.length = o.pos := by simp [Output.text]

theorem memory_text (o : Output) : o.memory = HeaderLines.memory o.text o.memory := by
  funext i
  unfold HeaderLines.memory
  rw [List.getD_eq_getElem?_getD]
  by_cases hi : i < o.pos
  · simp [Output.text, hi]
  · rw [List.getElem?_eq_none (by rw [length_text]; omega)]
    rfl

theorem text_append {o o' : Output} {t : Str} (hpos : o'.pos = o.pos + t.length)
    (hbefore : ∀ i < o.pos, o'.memory i = o.memory i) (hnew : Reads o'.memory o.pos t) :
    o'.text = o.text ++ t := by
  unfold Output.text
  rw [hpos, List.range_add, List.map_append, List.map_map]
  congr 1
  · exact List.map_congr_left fun i hi => hbefore i (List.mem_range.mp hi)
  · apply List.ext_getElem
    · simp
    · intro i hi hi'
      simpa using hnew i hi'

theorem text_copy {src : Str} (hfits : o.pos + (cstr src).length < MAX) :
    (o.copy src).text = o.text ++ cstr src := by
  have hmax : MAX = 8192 := rfl
  apply text_append
  · change o.pos + (cstr src).length % 2 ^ 32 = _
    rw [Nat.mod_eq_of_lt (by omega)]
  · exact fun i hi => strlcpy_of_lt src hi
  · change Reads (strlcpy o.memory o.pos src (room o.pos)) o.pos (cstr src)
    by_cases hnil : cstr src = []
    · rw [hnil]
      exact fun i hi => absurd hi (Nat.not_lt_zero i)
    · have hroom := room_of_lt (by omega : o.pos < MAX)
      rw [strlcpy_eq hnil (by omega), Nat.min_eq_left (by omega), List.take_length]
      have hreads := @reads_store o.memory o.pos (cstr src ++ [0]) (cstr src).length
      rwa [List.take_left] at hreads

theorem text_sprintf (t : Str) : (o.sprintf t).text = o.text ++ t := by
  apply text_append rfl
  · exact fun i hi => store_of_lt _ hi
  · have hreads := @reads_store o.memory o.pos (t ++ [0]) t.length
    rwa [List.take_left] at hreads

theorem text_copyName {name : Str} (hfits : o.pos + (cstr name).length < MAX) :
    (o.copyName name).text = o.text ++ capitalise true (cstr name) := by
  have hmax : MAX = 8192 := rfl
  have hcopy := text_copy hfits
  have hpos : (o.copy name).pos = o.pos + (cstr name).length := by
    change o.pos + (cstr name).length % 2 ^ 32 = _
    rw [Nat.mod_eq_of_lt (by omega)]
  have hreads : Reads (o.copy name).memory o.pos (cstr name) := by
    intro i hi
    have hget := congrArg (fun t => t[o.pos + i]?) hcopy
    simp only [Output.text] at hget
    rw [List.getElem?_append_right (by simp)] at hget
    simpa [hpos, hi] using hget
  have hsteps : (o.copy name).pos - o.pos = (cstr name).length := by omega
  apply text_append
  · rw [length_capitalise]
    exact hpos
  · intro i hi
    change Output.capitaliseLoop o.pos _ (Function.update _ _ _) i = _
    rw [capitaliseLoop_of_le _ hi.le, Function.update_of_ne hi.ne]
    exact strlcpy_of_lt name hi
  · change Reads (Output.capitaliseLoop o.pos ((o.copy name).pos - o.pos) (Function.update _ _ _)) _ _
    rw [hsteps]
    cases hname : cstr name with
    | nil => exact fun i hi => absurd hi (Nat.not_lt_zero i)
    | cons c rest =>
      rw [hname, reads_cons] at hreads
      have hloop := @reads_capitaliseLoop (toUpper c) rest
        (Function.update (o.copy name).memory o.pos (toUpper ((o.copy name).memory o.pos))) o.pos
        (by rw [Function.update_self, hreads.1]) fun i hi => by
          rw [Function.update_of_ne (by omega)]
          exact hreads.2 i hi
      rw [List.length_cons, capitalise, if_pos rfl, reads_cons, capitaliseLoop_of_le _ le_rfl,
        Function.update_self, hreads.1]
      rw [decide_eq_decide.mpr (toUpper_eq_dash c), hreads.1] at hloop
      exact ⟨rfl, hloop⟩

theorem cstr_decimal (n : Nat) : cstr (decimal n) = decimal n :=
  cstr_of_notMem fun h => absurd (isDigit_of_mem_decimal h) (by decide)

theorem text_write {piece : Piece} (hfits : o.pos + piece.text.length < MAX) :
    (piece.write o).text = o.text ++ piece.text := by
  cases piece with
  | copy src => exact text_copy hfits
  | sprintf t => exact text_sprintf t
  | name src => exact text_copyName (by simpa [Piece.text] using hfits)
  | number value =>
    have hnumber := @text_copy o (decimal value.toNat) (by rw [cstr_decimal]; exact hfits)
    rw [cstr_decimal] at hnumber
    exact hnumber

end

/-! ## All of them -/

theorem text_writes {pieces : List Piece} {o : Output} (hfits : o.pos + (text pieces).length < MAX) :
    (write pieces o).text = o.text ++ text pieces := by
  induction pieces generalizing o with
  | nil => exact (List.append_nil _).symm
  | cons piece pieces ih =>
    have hsplit : text (piece :: pieces) = piece.text ++ text pieces := List.flatMap_cons
    rw [hsplit, List.length_append] at hfits
    have hfirst := @text_write o piece (by omega)
    have hpos : (piece.write o).pos = o.pos + piece.text.length := by
      rw [← length_text, hfirst, List.length_append, length_text]
    change (write pieces (piece.write o)).text = _
    rw [ih (by omega), hfirst, hsplit, List.append_assoc]

/-- **What is written into an empty buffer.** -/
theorem written (pieces : List Piece) (memory : Nat → Byte) (hfits : (text pieces).length < MAX) :
    (write pieces ⟨memory, 0, true⟩).text = text pieces :=
  (text_writes (by rwa [Nat.zero_add])).trans (List.nil_append _)

end MyServer.HeaderText
