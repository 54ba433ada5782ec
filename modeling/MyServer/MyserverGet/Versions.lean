import MyServer.Plugin.VersionOrder
import Mathlib.Data.List.DropRight

/-!
# The numbers of versions (myserver-get, general.py)

`__versionConverter` reads a version with a regular expression of its own, whose dots stand for any character.
The loop over the components keeps the last of them only.
-/

open MyServer.Plugin (Version dotted)

namespace MyServer.MyserverGet

/-- What a part of a regular expression can take from the front of a text, the first choice first. -/
abbrev Pattern := Str → List (Str × Str)

namespace Pattern

def one (p : Byte → Bool) : Pattern
  | [] => []
  | c :: rest => if p c then [([c], rest)] else []

/-- `?` behind a class. -/
def zeroOrOne (p : Byte → Bool) : Pattern := fun s => one p s ++ [([], s)]

def andThen (f g : Pattern) : Pattern := fun s =>
  (f s).flatMap fun (a, rest) => (g rest).map fun (b, rest) => (a ++ b, rest)

/-- `(...)?`. A group that is left out is `None`. -/
def group (f : Pattern) (s : Str) : List (Option Str × Str) :=
  (f s).map (fun (a, rest) => (some a, rest)) ++ [(none, s)]

end Pattern

open Pattern

/-- `([1-2]?[1-9]?[0-9])?`. -/
def firstGroup : Str → List (Option Str × Str) :=
  group ((zeroOrOne Plugin.isHundreds).andThen ((zeroOrOne Plugin.isPositive).andThen (one Plugin.isDigit)))

/-- `(.[1-2]?[0-9]?[0-9])?`. -/
def laterGroup : Str → List (Option Str × Str) :=
  group ((one (· ≠ ch '\n')).andThen
    ((zeroOrOne Plugin.isHundreds).andThen ((zeroOrOne Plugin.isDigit).andThen (one Plugin.isDigit))))

/-- The groups one after the other, up to the end or a newline there. -/
def groupsFrom : List (Str → List (Option Str × Str)) → Str → List (List (Option Str))
  | [], s => if s = [] ∨ s = [ch '\n'] then [[]] else []
  | g :: gs, s => (g s).flatMap fun (a, rest) => (groupsFrom gs rest).map (a :: ·)

/-- `__versionRegex.search (versionString).groups ()`. -/
def versionGroups (s : Str) : Option (List (Option Str)) :=
  (groupsFrom [firstGroup, laterGroup, laterGroup, laterGroup] s).head?

/-- The digits of `int ()`. -/
def digits (s : Str) : Option Int := if s ≠ [] ∧ s.all Plugin.isDigit then some (Int.ofNat (Plugin.atoi s)) else none

/-- `int ()` of a text. -/
def int (s : Str) : Option Int :=
  match (s.dropWhile isSpace).rdropWhile isSpace with
  | [] => none
  | c :: rest =>
    if c = ch '-' then (digits rest).map fun n => -n
    else if c = ch '+' then digits rest
    else digits (c :: rest)

/-- `none` is an exception. -/
def versionConverter (versionString : Str) : Option Int := do
  let groups ← versionGroups versionString
  let numbers ← (groups.filterMap id).mapM fun dirtyNumber => int (dirtyNumber.filter (· ≠ ch '.'))
  -- `result` is assigned anew for each of the numbers
  return numbers.zipIdx.foldl (fun _ number => number.1 * 2 ^ (8 * (4 - number.2))) 0

/-! ## Groups -/

/-- Nothing that a component could go on with. -/
def Stops (rest : Str) : Prop := rest = [] ∨ ∃ later, rest = ch '.' :: later

theorem head?_flatMap {α β : Type} {l : List α} {f : α → List β} {a : α} {b : β} (ha : l.head? = some a)
    (hb : (f a).head? = some b) : (l.flatMap f).head? = some b := by
  obtain ⟨t, rfl⟩ := List.head?_eq_some_iff.mp ha
  obtain ⟨u, hu⟩ := List.head?_eq_some_iff.mp hb
  rw [List.flatMap_cons, hu]
  rfl

/-- **The first choice for a component** is all of it. -/
theorem firstGroup_component {part rest : Str} (hpart : Plugin.firstComponent part = true) (hrest : Stops rest) :
    (firstGroup (part ++ rest)).head? = some (some part, rest) := by
  have hdot : Plugin.isPositive (ch '.') = false ∧ Plugin.isDigit (ch '.') = false := by decide
  unfold Plugin.firstComponent at hpart
  unfold firstGroup group andThen zeroOrOne one
  split at hpart
  · rename_i c
    rcases hrest with rfl | ⟨later, rfl⟩ <;> cases hh : Plugin.isHundreds c <;> cases hp : Plugin.isPositive c <;>
      simp [hh, hp, hpart, hdot]
  · rename_i b c
    rw [Bool.and_eq_true] at hpart
    rcases hrest with rfl | ⟨later, rfl⟩ <;> cases hh : Plugin.isHundreds b <;> cases hp : Plugin.isPositive c <;>
      simp [hh, hp, hpart, hdot]
  · rename_i a b c
    rw [Bool.and_eq_true, Bool.and_eq_true] at hpart
    simp [hpart]
  · cases hpart

theorem laterGroup_component {part rest : Str} (hpart : Plugin.laterComponent part = true) (hrest : Stops rest) :
    (laterGroup (ch '.' :: part ++ rest)).head? = some (some (ch '.' :: part), rest) := by
  have hdot : Plugin.isDigit (ch '.') = false ∧ Plugin.isHundreds (ch '.') = false := by decide
  have hline : ch '.' ≠ ch '\n' := by decide
  unfold Plugin.laterComponent at hpart
  unfold laterGroup group andThen zeroOrOne one
  split at hpart
  · rename_i c
    rcases hrest with rfl | ⟨later, rfl⟩ <;> cases hh : Plugin.isHundreds c <;>
      simp [hh, hpart, hdot, hline]
  · rename_i b c
    rw [Bool.and_eq_true] at hpart
    rcases hrest with rfl | ⟨later, rfl⟩ <;> cases hh : Plugin.isHundreds b <;>
      simp [hh, hpart, hdot, hline]
  · rename_i a b c
    rw [Bool.and_eq_true, Bool.and_eq_true] at hpart
    simp [hpart, hline]
  · cases hpart

/-- A component behind its dot. -/
def behindDot (part : Str) : Str := ch '.' :: part

theorem stops_flatMap (parts : List Str) : Stops (parts.flatMap behindDot) := by
  cases parts with
  | nil => exact Or.inl rfl
  | cons part parts => exact Or.inr ⟨_, rfl⟩

theorem laterGroups_components {k : Nat} {parts : List Str} (hlength : parts.length ≤ k)
    (hparts : ∀ part ∈ parts, Plugin.laterComponent part = true) :
    (groupsFrom (List.replicate k laterGroup) (parts.flatMap behindDot)).head? =
      some (parts.map (fun part => some (behindDot part)) ++ List.replicate (k - parts.length) none) := by
  induction k generalizing parts with
  | zero =>
    obtain rfl := List.length_eq_zero_iff.mp (Nat.le_zero.mp hlength)
    rfl
  | succ k ih =>
    rw [List.replicate_succ, groupsFrom]
    cases parts with
    | nil =>
      have hnone : (laterGroup []).head? = some (none, []) := rfl
      have hrest := @ih [] (Nat.zero_le k) fun part hpart => absurd hpart List.not_mem_nil
      refine head?_flatMap hnone ?_
      rw [List.head?_map, ← List.flatMap_nil (f := behindDot), hrest]
      rfl
    | cons part parts =>
      obtain ⟨hpart, hparts⟩ := List.forall_mem_cons.mp hparts
      have hgroup := laterGroup_component hpart (stops_flatMap parts)
      refine head?_flatMap hgroup ?_
      rw [List.head?_map, ih (Nat.succ_le_succ_iff.mp hlength) hparts, List.length_cons, Nat.succ_sub_succ]
      rfl

theorem dotted_cons (part : Str) (parts : List Str) : dotted (part :: parts) = part ++ parts.flatMap behindDot := by
  unfold dotted
  induction parts generalizing part with
  | nil => simp
  | cons second parts ih => rw [List.intercalate_cons_cons, ih, List.flatMap_cons, behindDot, List.append_assoc,
      List.singleton_append, List.cons_append]

/-! ## Numbers -/

theorem rdropWhile_of_last {l : Str} {p : Byte → Bool} (h : ∀ b ∈ l, p b = false) : l.rdropWhile p = l := by
  refine List.rdropWhile_eq_self_iff.mpr fun hne => ?_
  rw [h _ (List.getLast_mem hne)]
  exact Bool.false_ne_true

theorem int_decimal (n : Nat) : int (decimal n) = some n := by
  have hspace : ∀ b ∈ decimal n, isSpace b = false := fun b hb => (not_space_of_digit (isDigit_of_mem_decimal hb)).1
  have hdigits : digits (decimal n) = some (Int.ofNat n) := by
    unfold digits
    rw [if_pos ⟨decimal_ne_nil n, List.all_eq_true.mpr fun b hb => isDigit_of_mem_decimal hb⟩, Plugin.atoi_decimal]
  obtain ⟨c, rest, hcons⟩ := List.exists_cons_of_ne_nil (decimal_ne_nil n)
  have hc := not_space_of_digit (isDigit_of_mem_decimal (n := n) (b := c) (by rw [hcons]; exact List.mem_cons_self))
  have hdrop : (decimal n).dropWhile isSpace = decimal n := by
    rw [hcons, List.dropWhile_cons_of_neg (by rw [hc.1]; exact Bool.false_ne_true)]
  unfold int
  rw [hdrop, rdropWhile_of_last hspace]
  rw [hcons] at hdigits ⊢
  dsimp only
  rw [if_neg hc.2.1, if_neg hc.2.2, hdigits]
  rfl

/-- Without its dot a component is a number. -/
theorem int_filter_decimal (n : Nat) :
    int ((decimal n).filter (· ≠ ch '.')) = some n ∧ int ((behindDot (decimal n)).filter (· ≠ ch '.')) = some n := by
  have hkeep : (decimal n).filter (· ≠ ch '.') = decimal n := by
    rw [List.filter_eq_self]
    intro b hb
    rw [decide_eq_true_eq]
    rintro rfl
    exact Plugin.dot_notMem_decimal n hb
  have hdrop : (behindDot (decimal n)).filter (· ≠ ch '.') = decimal n := by
    rw [behindDot, List.filter_cons_of_neg (by simp), hkeep]
  rw [hkeep, hdrop]
  exact ⟨int_decimal n, int_decimal n⟩

/-- The last of the components. -/
def lastComponent (v : Version) : Nat := (v.first :: v.later).getLast (List.cons_ne_nil _ _)

def weight (v : Version) : Nat := lastComponent v * 2 ^ (8 * (4 - v.later.length))

theorem foldl_last {β γ : Type} (f : β → γ) (l : List β) (h : l ≠ []) (z : γ) :
    l.foldl (fun _ b => f b) z = f (l.getLast h) := by
  conv_lhs => rw [← List.dropLast_append_getLast h, List.foldl_append]
  rfl

/-- **The number of a version** is that of its last component, at the place that its count of components gives. -/
theorem versionConverter_text (v : Version) (hallowed : Version.Allowed v.first) :
    versionConverter v.text = some (weight v : Int) := by
  have hregex := (Version.regexMatches_text v).mpr hallowed
  rw [List.map_cons, Plugin.regexMatches, Bool.and_eq_true, Bool.and_eq_true] at hregex
  obtain ⟨⟨hfirst, -⟩, hlater⟩ := hregex
  have hcomponents : ∀ part ∈ v.later.map decimal, Plugin.laterComponent part = true :=
    fun part hpart => List.all_eq_true.mp hlater part hpart
  have hlength : (v.later.map decimal).length ≤ 3 := by
    rw [List.length_map]
    exact v.later_length
  have hgroups : versionGroups v.text = some (some (decimal v.first) ::
      ((v.later.map decimal).map (fun part => some (behindDot part)) ++
        List.replicate (3 - (v.later.map decimal).length) none)) := by
    unfold versionGroups Version.text
    rw [List.map_cons, dotted_cons, groupsFrom]
    refine head?_flatMap (firstGroup_component hfirst (stops_flatMap _)) ?_
    rw [List.head?_map, show [laterGroup, laterGroup, laterGroup] = List.replicate 3 laterGroup from rfl,
      laterGroups_components hlength hcomponents]
    rfl
  have hmatched : ((some (decimal v.first) :: ((v.later.map decimal).map (fun part => some (behindDot part)) ++
      List.replicate (3 - (v.later.map decimal).length) none)).filterMap id) =
      decimal v.first :: v.later.map fun n => behindDot (decimal n) := by
    simp [List.filterMap_append, List.filterMap_map, Function.comp_def]
  have hnumbers : (decimal v.first :: v.later.map fun n => behindDot (decimal n)).mapM
      (fun dirtyNumber => int (dirtyNumber.filter (· ≠ ch '.'))) = some ((v.first :: v.later).map Int.ofNat) := by
    have hrest : ∀ l : List Nat, (l.map fun n => behindDot (decimal n)).mapM
        (fun dirtyNumber => int (dirtyNumber.filter (· ≠ ch '.'))) = some (l.map Int.ofNat) := by
      intro l
      induction l with
      | nil => rfl
      | cons n l ih =>
        rw [List.map_cons, List.mapM_cons, (int_filter_decimal n).2, ih]
        rfl
    rw [List.mapM_cons, (int_filter_decimal v.first).1, hrest]
    rfl
  unfold versionConverter
  rw [hgroups, Option.bind_eq_bind, Option.bind_some, hmatched, hnumbers]
  have hne : ((v.first :: v.later).map Int.ofNat).zipIdx ≠ [] := by simp
  refine congrArg some ((foldl_last (fun number : Int × Nat => number.1 * 2 ^ (8 * (4 - number.2))) _ hne 0).trans ?_)
  simp only [weight, lastComponent, List.getLast_eq_getElem, List.getElem_zipIdx, List.getElem_map, List.length_zipIdx,
    List.length_map, List.length_cons, Nat.add_sub_cancel, Nat.zero_add]
  rfl

/-! ## Ranges -/

/-- The comparison of a plugin with the range that a dependence gives. `none` is an exception. -/
def inRange (version minVersion maxVersion : Str) : Option Bool := do
  let minversion ← versionConverter minVersion
  let maxversion ← versionConverter maxVersion
  let pluginversion ← versionConverter version
  return ¬(pluginversion < minversion ∨ maxversion < pluginversion)

/-- **The range that is checked**: of each of the three versions the last component counts, shifted by as many
places as the version is short of four components. What stands in front of it is never looked at. -/
theorem inRange_iff_weight (v lo hi : Version) (hv : Version.Allowed v.first) (hlo : Version.Allowed lo.first)
    (hhi : Version.Allowed hi.first) :
    inRange v.text lo.text hi.text = some true ↔ weight lo ≤ weight v ∧ weight v ≤ weight hi := by
  unfold inRange
  rw [versionConverter_text v hv, versionConverter_text lo hlo, versionConverter_text hi hhi]
  simp only [Option.bind_eq_bind, Option.bind_some, Option.pure_def, Option.some_inj, decide_eq_true_eq, not_or,
    not_lt, Int.ofNat_le]

/-- A version `a.b`. -/
def twoComponents (a b : Fin 100) : Version where
  first := a
  later := [b]
  first_le := by omega
  later_le n hn := by
    rw [List.mem_singleton] at hn
    omega
  later_length := Nat.le_add_left 1 2

/-- 1.0 is in the range from 0.0 to 0.5. -/
theorem inRange_zero_five :
    inRange (twoComponents 1 0).text (twoComponents 0 0).text (twoComponents 0 5).text = some true :=
  (inRange_iff_weight _ _ _ (by decide) (by decide) (by decide)).mpr (by decide)

example : (twoComponents 1 0).text = ascii "1.0" := by decide

end MyServer.MyserverGet
