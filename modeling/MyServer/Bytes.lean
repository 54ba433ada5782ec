import Mathlib.Tactic
import Mathlib.Data.List.TakeWhile

/-!
# Byte strings

A `std::string` is a list of bytes here, and so is a `char*`, without the NUL
that ends it.
-/

namespace MyServer

abbrev Byte := UInt8
abbrev Str := List Byte

-- Over the bytes of the text, and not over all the bytes there are.
instance (priority := 2000) (p : Byte → Prop) [DecidablePred p] (s : Str) : Decidable (∀ b ∈ s, p b) :=
  List.decidableBAll p s

def ch (c : Char) : Byte := UInt8.ofNat c.toNat

def ascii (s : String) : Str := s.toList.map ch

def crlf : Str := [ch '\r', ch '\n']

/-- What `c_str ()` shows to code that stops at the first NUL. -/
def cstr (s : Str) : Str := s.takeWhile (· ≠ 0)

def toLower (b : Byte) : Byte := if 65 ≤ b.toNat ∧ b.toNat ≤ 90 then b + 32 else b

/-- `strcasecmp (a, b) == 0`. -/
def caseEq (a b : Str) : Bool := (cstr a).map toLower = (cstr b).map toLower

/-- A literal is read off its characters: the kernel decodes UTF-8 far more slowly. -/
theorem ascii_ofList (l : List Char) : ascii (String.ofList l) = l.map ch := by
  rw [ascii, String.toList_ofList]

theorem ne_zero_of_mem_cstr {s : Str} {b : Byte} (h : b ∈ cstr s) : b ≠ 0 := by
  simpa using List.mem_takeWhile_imp h

theorem zero_notMem_cstr (s : Str) : (0 : Byte) ∉ cstr s := fun h => ne_zero_of_mem_cstr h rfl

theorem cstr_of_notMem {s : Str} (h : (0 : Byte) ∉ s) : cstr s = s := by
  unfold cstr
  rw [List.takeWhile_eq_self_iff]
  intro b hb
  simpa using fun heq : b = 0 => h (heq ▸ hb)

@[simp] theorem cstr_cstr (s : Str) : cstr (cstr s) = cstr s := List.takeWhile_idem

theorem cstr_append {a : Str} (h : (0 : Byte) ∉ a) (b : Str) : cstr (a ++ b) = a ++ cstr b := by
  unfold cstr
  rw [List.takeWhile_append_of_pos]
  intro c hc
  simp only [ne_eq, decide_not, Bool.not_eq_eq_eq_not, Bool.not_true, decide_eq_false_iff_not]
  rintro rfl
  exact h hc

theorem cstr_append_of_mem {a : Str} (h : (0 : Byte) ∈ a) (b : Str) : cstr (a ++ b) = cstr a := by
  unfold cstr
  induction a with
  | nil => simp at h
  | cons c a ih =>
    by_cases hc : c = 0
    · simp [hc]
    · have ha : (0 : Byte) ∈ a := (List.mem_cons.mp h).resolve_left (Ne.symm hc)
      simpa [hc] using ih ha

/-- Only a letter comes out in lower case. -/
theorem eq_of_toLower {b c : Byte} (hc : c.toNat < 97) (h : toLower b = c) : b = c := by
  unfold toLower at h
  split_ifs at h with hb
  · have hto := congrArg UInt8.toNat h
    have h32 : (32 : UInt8).toNat = 32 := rfl
    rw [UInt8.toNat_add] at hto
    omega
  · exact h

@[simp] theorem toLower_toLower (b : Byte) : toLower (toLower b) = toLower b := by
  have hnot : ¬ (65 ≤ (toLower b).toNat ∧ (toLower b).toNat ≤ 90) := by
    unfold toLower
    split_ifs with h
    · have h32 : (32 : UInt8).toNat = 32 := rfl
      rw [UInt8.toNat_add]
      omega
    · exact h
  rw [toLower, if_neg hnot]

theorem zero_notMem_lower {s : Str} (h : (0 : Byte) ∉ s) : (0 : Byte) ∉ s.map toLower := by
  intro hmem
  obtain ⟨b, hb, hzero⟩ := List.mem_map.mp hmem
  exact h (eq_of_toLower (by decide) hzero ▸ hb)

/-- `strcasecmp` does not see the case. -/
theorem caseEq_lower {s : Str} (h : (0 : Byte) ∉ s) (t : Str) : caseEq (s.map toLower) t = caseEq s t := by
  unfold caseEq
  rw [cstr_of_notMem h, cstr_of_notMem (zero_notMem_lower h), List.map_map]
  congr 3
  funext b
  exact toLower_toLower b

end MyServer
