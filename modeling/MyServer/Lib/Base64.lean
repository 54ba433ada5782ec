import Mathlib.Tactic

/-!
# Base 64

Three bytes are a number of 24 bits, and so are four digits of six bits.
-/

namespace MyServer.Base64

/-- The number that three bytes are. -/
def number (a b c : UInt8) : Nat := (a.toNat * 256 + b.toNat) * 256 + c.toNat

def digits (n : Nat) : List Nat := [n / 262144, n / 4096 % 64, n / 64 % 64, n % 64]

def bytes (n : Nat) : List UInt8 := [n / 65536, n / 256, n].map UInt8.ofNat

/-- The number that digits are. -/
def value (ds : List Nat) : Nat := ds.foldl (fun n d => n * 64 + d) 0

/-- What `digit` writes for each of the digits, and no line breaks. -/
def encode (digit : Nat → UInt8) (pad : UInt8) : List UInt8 → List UInt8
  | [] => []
  | [a] => ((digits (number a 0 0)).take 2).map digit ++ [pad, pad]
  | [a, b] => ((digits (number a b 0)).take 3).map digit ++ [pad]
  | a :: b :: c :: text => (digits (number a b c)).map digit ++ encode digit pad text

theorem number_lt (a b c : UInt8) : number a b c < 2 ^ 24 := by
  have ha := a.toNat_lt
  have hb := b.toNat_lt
  have hc := c.toNat_lt
  unfold number
  omega

theorem lt_of_mem_digits {n : Nat} (h : n < 2 ^ 24) : ∀ d ∈ digits n, d < 64 := by
  unfold digits
  simp only [List.forall_mem_cons]
  refine ⟨by omega, by omega, by omega, by omega, nofun⟩

theorem bytes_number (a b c : UInt8) : bytes (number a b c) = [a, b, c] := by
  have hb := b.toNat_lt
  have hc := c.toNat_lt
  have hhigh : number a b c / 65536 = a.toNat := by unfold number; omega
  have hmid : number a b c / 256 = a.toNat * 256 + b.toNat := by unfold number; omega
  have hlow : UInt8.ofNat (number a b c) = c := by
    apply UInt8.toNat.inj
    simp [number]
  have hmiddle : UInt8.ofNat (a.toNat * 256 + b.toNat) = b := by
    apply UInt8.toNat.inj
    simp
  simp [bytes, hhigh, hmid, hlow, hmiddle]

theorem value_digits {n : Nat} (h : n < 2 ^ 24) : value (digits n) = n := by
  simp only [value, digits, List.foldl_cons, List.foldl_nil]
  omega

/-- The digits that are not written for one byte are zeros. -/
theorem value_one (a : UInt8) : value ((digits (number a 0 0)).take 2) * 4096 = number a 0 0 := by
  have ha := a.toNat_lt
  simp only [value, digits, number, List.take_succ_cons, List.take_zero, List.foldl_cons, List.foldl_nil,
    UInt8.toNat_zero]
  omega

theorem value_two (a b : UInt8) : value ((digits (number a b 0)).take 3) * 64 = number a b 0 := by
  have ha := a.toNat_lt
  have hb := b.toNat_lt
  simp only [value, digits, number, List.take_succ_cons, List.take_zero, List.foldl_cons, List.foldl_nil,
    UInt8.toNat_zero]
  omega

variable {digit : Nat → UInt8} {pad : UInt8}

theorem length_encode (text : List UInt8) :
    (encode digit pad text).length = (text.length + 2) / 3 * 4 := by
  induction text using encode.induct with
  | case1 => rfl
  | case2 a => simp [encode, digits]
  | case3 a b => simp [encode, digits]
  | case4 a b c text ih =>
    simp only [encode, List.length_append, List.length_map, ih, List.length_cons, digits, List.length_nil]
    omega

end MyServer.Base64
