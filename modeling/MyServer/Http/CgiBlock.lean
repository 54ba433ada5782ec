import MyServer.Bytes

/-!
# The environment block of a CGI request

A list of `NAME=VALUE` entries, each ended by a NUL, and an empty entry at the end.
FastCGI and SCGI scan it alike, with the same two buffers.
-/

namespace MyServer.Cgi

/-- Why nothing is sent: a byte outside of a buffer was read or written, or an entry did not fit and
-1 is returned. -/
inductive Stop where
  | outside
  | tooLong
deriving DecidableEq

/-- `while ((--max) && *sptr != stop)`, with `max` not yet counted down. -/
def scan (stop : Byte) : Nat → Str → Except Stop (Str × Str)
  | 0, _ | 1, _ => .error .tooLong
  | _ + 2, [] => .error .outside
  | max + 2, c :: sptr =>
    if c = stop then .ok ([], c :: sptr)
    else (scan stop (max + 1) sptr).map fun r => (c :: r.1, r.2)

/-- `varName`, `varValue`, and where `sptr` is then: at the NUL behind the value. -/
def readVariable (sptr : Str) : Except Stop (Str × Str × Str) := do
  let (varName, sptr) ← scan (ch '=') 100 (sptr.dropWhile (· = 0))
  let (varValue, sptr) ← scan 0 2500 sptr.tail
  return (varName, varValue, sptr)

/-! ## Blocks -/

structure Variable where
  name : Str
  value : Str
  name_eq : ch '=' ∉ name
  name_nul : (0 : Byte) ∉ name
  value_nul : (0 : Byte) ∉ value

namespace Variable

variable (v : Variable)

def bytes : Str := v.name ++ ch '=' :: (v.value ++ [0])

def pair : Str × Str := (v.name, v.value)

/-- It fits into the buffers of the scan. -/
def Short : Prop := v.name.length < 99 ∧ v.value.length < 2499

instance : Decidable v.Short := inferInstanceAs (Decidable (_ ∧ _))

theorem bytes_head : ∃ c s, v.bytes = c :: s ∧ c ≠ 0 := by
  unfold bytes
  cases h : v.name with
  | nil => exact ⟨_, _, rfl, by decide⟩
  | cons c s =>
    refine ⟨c, _, rfl, ?_⟩
    rintro rfl
    exact v.name_nul (by rw [h]; exact List.mem_cons_self)

end Variable

def entries (vars : List Variable) : Str := vars.flatMap Variable.bytes

def block (vars : List Variable) : Str := entries vars ++ [0]

theorem entries_cons (v : Variable) (vars : List Variable) :
    entries (v :: vars) = v.bytes ++ entries vars := rfl

theorem block_cons (v : Variable) (vars : List Variable) : block (v :: vars) = v.bytes ++ block vars := by
  unfold block
  rw [entries_cons, List.append_assoc]

theorem length_le_length_block (vars : List Variable) : vars.length ≤ (block vars).length := by
  induction vars with
  | nil => exact Nat.zero_le _
  | cons v vars ih =>
    rw [block_cons, List.length_append, List.length_cons]
    have hbytes : 1 ≤ v.bytes.length := by
      unfold Variable.bytes
      simp
      omega
    omega

/-! ## Scanning a block -/

theorem scan_found {stop : Byte} {field : Str} (hfield : stop ∉ field) {max : Nat}
    (hmax : field.length + 1 < max) (rest : Str) :
    scan stop max (field ++ stop :: rest) = .ok (field, stop :: rest) := by
  induction field generalizing max with
  | nil =>
    obtain ⟨max, rfl⟩ := Nat.exists_eq_add_of_le' hmax
    simp [scan]
  | cons c field ih =>
    obtain ⟨hc, hfield⟩ := not_or.mp (mt List.mem_cons.mpr hfield)
    rw [List.length_cons] at hmax
    obtain ⟨max, rfl⟩ := Nat.exists_eq_add_of_le' (by omega : 2 ≤ max)
    rw [List.cons_append, scan, if_neg (Ne.symm hc), ih hfield (by omega)]
    rfl

theorem scan_tooLong {stop : Byte} {field : Str} (hfield : stop ∉ field) {max : Nat}
    (hmax : max ≤ field.length + 1) (rest : Str) :
    scan stop max (field ++ rest) = .error .tooLong := by
  induction field generalizing max with
  | nil =>
    obtain rfl | rfl := Nat.le_one_iff_eq_zero_or_eq_one.mp hmax
    · rfl
    · rfl
  | cons c field ih =>
    obtain ⟨hc, hfield⟩ := not_or.mp (mt List.mem_cons.mpr hfield)
    rw [List.length_cons] at hmax
    match max with
    | 0 | 1 => rfl
    | max + 2 =>
      rw [List.cons_append, scan, if_neg (Ne.symm hc), ih hfield (by omega)]
      rfl

theorem readVariable_nul (s : Str) : readVariable (0 :: s) = readVariable s := by
  unfold readVariable
  rw [List.dropWhile_cons_of_pos (by decide)]

section

variable {v : Variable}

theorem readVariable_bytes (hshort : v.Short) (rest : Str) :
    readVariable (v.bytes ++ rest) = .ok (v.name, v.value, 0 :: rest) := by
  obtain ⟨c, s, hbytes, hc⟩ := v.bytes_head
  unfold readVariable
  rw [hbytes, List.cons_append, List.dropWhile_cons_of_neg (by simpa using hc), ← List.cons_append,
    ← hbytes, Variable.bytes, List.append_assoc, List.cons_append,
    scan_found v.name_eq (by have := hshort.1; omega)]
  change (scan 0 2500 (v.value ++ [0] ++ rest) >>= fun r => _) = _
  rw [List.append_assoc, List.singleton_append, scan_found v.value_nul (by have := hshort.2; omega)]
  rfl

theorem readVariable_tooLong (hlong : ¬ v.Short) (rest : Str) :
    readVariable (v.bytes ++ rest) = .error .tooLong := by
  obtain ⟨c, s, hbytes, hc⟩ := v.bytes_head
  unfold readVariable
  rw [hbytes, List.cons_append, List.dropWhile_cons_of_neg (by simpa using hc), ← List.cons_append,
    ← hbytes, Variable.bytes, List.append_assoc, List.cons_append]
  by_cases hname : v.name.length < 99
  · have hvalue : ¬ v.value.length < 2499 := fun h => hlong ⟨hname, h⟩
    rw [scan_found v.name_eq (by omega)]
    change (scan 0 2500 (v.value ++ [0] ++ rest) >>= fun r => _) = _
    rw [List.append_assoc, scan_tooLong v.value_nul (by omega)]
    rfl
  · rw [scan_tooLong v.name_eq (by omega)]
    rfl

end

end MyServer.Cgi
