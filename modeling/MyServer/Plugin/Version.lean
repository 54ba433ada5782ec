import MyServer.Bytes

/-!
# Versions of plugins (PluginInfo::convertVersion)

A version `a.b.c.d` of one to four components becomes an `int` with eight bits
for each of them. From 128 on the first one takes the sign bit.
-/

namespace MyServer.Plugin

def isDigit (b : Byte) : Bool := 48 ≤ b.toNat ∧ b.toNat ≤ 57

/-- `[1-9]`. -/
def isPositive (b : Byte) : Bool := 49 ≤ b.toNat ∧ b.toNat ≤ 57

/-- `[1-2]`. -/
def isHundreds (b : Byte) : Bool := b = ch '1' ∨ b = ch '2'

/-- `[1-2]?[1-9]?[0-9]`. -/
def firstComponent : Str → Bool
  | [c] => isDigit c
  | [b, c] => isPositive b && isDigit c
  | [a, b, c] => isHundreds a && isPositive b && isDigit c
  | _ => false

/-- `[1-2]?[0-9]?[0-9]`. -/
def laterComponent : Str → Bool
  | [c] => isDigit c
  | [b, c] => isDigit b && isDigit c
  | [a, b, c] => isHundreds a && isDigit b && isDigit c
  | _ => false

/-- The regular expression of `convertVersion` on the parts between the dots. -/
def regexMatches : List Str → Bool
  | [] => false
  | first :: later => firstComponent first && later.length ≤ 3 && later.all laterComponent

/-- `atoi` of a text that starts with its digits. -/
def atoi (s : Str) : Nat := (s.takeWhile isDigit).foldl (fun n b => 10 * n + (b.toNat - 48)) 0

def toInt (n : Nat) : Int := (BitVec.ofNat 32 n).toInt

def pack (n1 n2 n3 n4 : Nat) : Nat := n1 * 2 ^ 24 + n2 * 2 ^ 16 + n3 * 2 ^ 8 + n4

def convertVersion (s : Str) : Int :=
  let parts := s.splitOn (ch '.')
  if regexMatches parts then
    match parts with
    -- without a dot there is no check against 255
    | [first] => toInt (atoi first * 2 ^ 24)
    | _ =>
      let n := fun i => atoi (parts.getD i [])
      if 255 < n 0 ∨ 255 < n 1 ∨ 255 < n 2 ∨ 255 < n 3 then -1
      else toInt (pack (n 0) (n 1) (n 2) (n 3))
  else -1

/-- The version of the server, from `MYSERVER_VERSION` without what follows a `-`. -/
def serverVersion (version : Str) : Int := convertVersion (version.takeWhile (· ≠ ch '-'))

/-- **Versions are ordered by their components**, as long as the first is below 128. -/
theorem pack_lt_iff {a b c d a' b' c' d' : Nat} (ha : a < 128) (hb : b ≤ 255) (hc : c ≤ 255)
    (hd : d ≤ 255) (ha' : a' < 128) (hb' : b' ≤ 255) (hc' : c' ≤ 255) (hd' : d' ≤ 255) :
    toInt (pack a b c d) < toInt (pack a' b' c' d') ↔
      a < a' ∨ a = a' ∧ (b < b' ∨ b = b' ∧ (c < c' ∨ c = c' ∧ d < d')) := by
  have hsign : ∀ n, n < 2 ^ 31 → toInt n = n := by
    intro n hn
    rw [toInt, BitVec.toInt_eq_toNat_of_lt] <;> rw [BitVec.toNat_ofNat] <;> omega
  have hpack : ∀ a b c d : Nat, a < 128 → b ≤ 255 → c ≤ 255 → d ≤ 255 → pack a b c d < 2 ^ 31 := by
    intro a b c d ha hb hc hd
    unfold pack
    omega
  rw [hsign _ (hpack a b c d ha hb hc hd), hsign _ (hpack a' b' c' d' ha' hb' hc' hd')]
  unfold pack
  omega

example : convertVersion (ascii "0.9.2") = 0x00090200 := by decide

example : convertVersion (ascii "1.300") = -1 := by decide

end MyServer.Plugin
