import MyServer.Bytes
import MyServer.Lib.Walk

/-!
# Paths of `FilesUtility`

The branches that are not `WIN32`. `getPathRecursionLevel` scans the path by
hand; `getPathRecursionLevel_eq` says which walk it measures.
-/

open MyServer.Walk

namespace MyServer.Files

def dot : Byte := ch '.'
def slash : Byte := ch '/'

def isSep (c : Byte) : Bool := c = ch '\\' ∨ c = slash

def skipName (lpath : Str) : Str := lpath.dropWhile fun c => !isSep c

def atEnd : Str → Bool
  | [] => true
  | c :: _ => isSep c

/-- The outer loop of `getPathRecursionLevel`; each round takes at least one character. -/
def levelLoop : Nat → Str → Int → Int
  | 0, _, level => level
  | _ + 1, [], level => level
  | fuel + 1, c :: lpath, level =>
    if isSep c then levelLoop fuel lpath level
    else if c = dot then
      match lpath with
      | [] => level
      | d :: lpath =>
        if d = dot then
          if atEnd lpath then levelLoop fuel lpath (level - 1)
          else levelLoop fuel (skipName lpath) (level + 1)
        else levelLoop fuel (d :: lpath) level
    else levelLoop fuel (skipName lpath) (level + 1)

def getPathRecursionLevel (path : Str) : Int := levelLoop (cstr path).length (cstr path) 0

/-! ## Components -/

/-- What one component does: `""` and `"."` stay, `".."` goes up, any other name goes down. -/
def toMove (component : Str) : Move Str :=
  if component = [] ∨ component = [dot] then .stay
  else if component = [dot, dot] then .up
  else .down component

/-- A path read component by component, between the separators `sep`. -/
def moves (sep : Byte → Bool) (path : Str) : List (Move Str) := (path.splitOnP sep).map toMove

def isSlash (c : Byte) : Bool := c = slash

@[simp] theorem toMove_nil : toMove [] = .stay := rfl

@[simp] theorem moves_nil (sep : Byte → Bool) : moves sep [] = [.stay] := rfl

theorem moves_sep_cons (sep : Byte → Bool) (c : Byte) (path : Str) (h : sep c = true) :
    moves sep (c :: path) = .stay :: moves sep path := by
  rw [moves, List.splitOnP_cons_eq_if_modifyHead, if_pos h]
  simp [moves]

theorem moves_append_sep (sep : Byte → Bool) (a b : Str) (c : Byte) (h : sep c = true) :
    moves sep (a ++ c :: b) = moves sep a ++ moves sep b := by
  rw [moves, List.splitOnP_append_cons a b h]
  simp [moves]

theorem splitOnP_takeWhile (sep : Byte → Bool) (path : Str) :
    path.splitOnP sep = path.takeWhile (fun c => !sep c) ::
      ((path.dropWhile fun c => !sep c).splitOnP sep).tail := by
  induction path with
  | nil => simp
  | cons c path ih =>
    by_cases h : sep c = true
    · rw [List.takeWhile_cons_of_neg (by simp [h]), List.dropWhile_cons_of_neg (by simp [h]),
        List.splitOnP_cons_eq_if_modifyHead, if_pos h]
      rfl
    · rw [List.splitOnP_cons_eq_if_modifyHead, if_neg h, ih, List.takeWhile_cons_of_pos (by simp [h]),
        List.dropWhile_cons_of_pos (by simp [h])]
      rfl

theorem head_splitOnP_dropWhile (sep : Byte → Bool) (path : Str) :
    (path.dropWhile fun c => !sep c).splitOnP sep =
      [] :: ((path.dropWhile fun c => !sep c).splitOnP sep).tail := by
  have hstop := List.head?_dropWhile_not (fun c => !sep c) path
  cases h : path.dropWhile fun c => !sep c with
  | nil => simp
  | cons c rest =>
    have hc : sep c = true := by simpa [h] using hstop
    rw [List.splitOnP_cons_eq_if_modifyHead, if_pos hc]
    rfl

theorem depth_moves (path : Str) :
    depth (moves isSep path) =
      (toMove (path.takeWhile fun c => !isSep c)).rise + depth (moves isSep (skipName path)) := by
  conv => lhs; rw [moves, splitOnP_takeWhile]
  rw [moves, skipName, head_splitOnP_dropWhile]
  simp

theorem rise_name (c : Byte) (name : Str) (h : c ≠ dot) : (toMove (c :: name)).rise = 1 := by
  simp [toMove, h]

theorem rise_dots (c : Byte) (name : Str) : (toMove (dot :: dot :: c :: name)).rise = 1 := by
  simp [toMove]

theorem skipName_length (lpath : Str) : (skipName lpath).length ≤ lpath.length :=
  (List.dropWhile_sublist _).length_le

theorem skipName_cons (c : Byte) (lpath : Str) (h : isSep c = false) :
    skipName (c :: lpath) = skipName lpath := by
  simp [skipName, h]

theorem depth_moves_dot (d : Byte) (lpath : Str) (hd : d ≠ dot) :
    depth (moves isSep (dot :: d :: lpath)) = depth (moves isSep (d :: lpath)) := by
  have hdot : isSep dot = false := by decide
  rw [depth_moves (dot :: d :: lpath), depth_moves (d :: lpath), skipName_cons _ _ hdot]
  cases hs : isSep d with
  | true => simp [hs, hdot, toMove]
  | false =>
    have hname : (toMove (dot :: d :: lpath.takeWhile fun c => !isSep c)).rise = 1 := by
      simp [toMove, hd]
    simp [hs, hdot, hname, rise_name d _ hd]

theorem takeWhile_atEnd (lpath : Str) (h : atEnd lpath = true) :
    lpath.takeWhile (fun c => !isSep c) = [] ∧ skipName lpath = lpath := by
  cases lpath with
  | nil => simp [skipName]
  | cons c lpath =>
    have hc : isSep c = true := h
    simp [skipName, hc]

theorem takeWhile_not_atEnd (lpath : Str) (h : ¬ atEnd lpath = true) :
    ∃ c name, lpath.takeWhile (fun c => !isSep c) = c :: name := by
  cases lpath with
  | nil => simp [atEnd] at h
  | cons c lpath =>
    have hc : isSep c = false := by simpa [atEnd] using h
    exact ⟨c, lpath.takeWhile (fun c => !isSep c), by simp [hc]⟩

theorem levelLoop_eq (fuel : Nat) (lpath : Str) (level : Int) (h : lpath.length ≤ fuel) :
    levelLoop fuel lpath level = level + depth (moves isSep lpath) := by
  induction fuel generalizing lpath level with
  | zero =>
    have : lpath = [] := List.eq_nil_of_length_eq_zero (by omega)
    simp [this, levelLoop]
  | succ fuel ih =>
    have hdot : isSep dot = false := by decide
    cases lpath with
    | nil => simp [levelLoop]
    | cons c lpath =>
      simp only [List.length_cons] at h
      unfold levelLoop
      split_ifs with hs hc
      · rw [ih _ _ (by omega), moves_sep_cons _ _ _ hs]
        simp
      · subst hc
        cases lpath with
        | nil => simp [depth_moves [dot], hdot, skipName, toMove]
        | cons d lpath =>
          simp only [List.length_cons] at h
          have hlen := skipName_length lpath
          dsimp only
          split_ifs with hd hend
          · -- The component is "..".
            subst hd
            obtain ⟨htake, hskip⟩ := takeWhile_atEnd lpath hend
            rw [ih _ _ (by omega), depth_moves (dot :: dot :: lpath), skipName_cons _ _ hdot,
              skipName_cons _ _ hdot, hskip]
            simp [hdot, htake, toMove]
            omega
          · -- A name that starts with "..".
            subst hd
            obtain ⟨e, name, htake⟩ := takeWhile_not_atEnd lpath hend
            rw [ih _ _ (by omega), depth_moves (dot :: dot :: lpath), skipName_cons _ _ hdot,
              skipName_cons _ _ hdot]
            simp [hdot, htake, rise_dots]
            omega
          · rw [ih _ _ (by simp; omega), depth_moves_dot d lpath hd]
      · have hlen := skipName_length lpath
        have hs' : isSep c = false := by simpa using hs
        rw [ih _ _ (by omega), depth_moves (c :: lpath), skipName_cons _ _ hs']
        simp [hs', rise_name c _ hc]
        omega

/-- The scanner computes the net depth, with the backslash as a second separator. -/
theorem getPathRecursionLevel_eq (path : Str) :
    getPathRecursionLevel path = depth (moves isSep (cstr path)) := by
  rw [getPathRecursionLevel, levelLoop_eq _ _ _ le_rfl]
  simp

example : getPathRecursionLevel (ascii "/home/.././../../bar/") = -1 := by decide

/-! ## Below a root -/

/-- The path is the root and a walk that never climbs above the root, not even on its way. -/
def BelowRoot (root path : Str) : Prop :=
  ∃ part, path = root ++ part ∧ (part = [] ∨ part.head? = some slash) ∧
    Confined (moves isSlash part) ∧
    ∀ base, ∃ q, walk base (moves isSlash part) = some (q ++ base)

/-- At no point of the path have the `..` components outnumbered the names. -/
def NeverOutnumbered (path : Str) : Prop :=
  ∀ k, ups ((moves isSlash path).take k) ≤ downs ((moves isSlash path).take k)

theorem confined_slash_cons (path : Str) :
    Confined (moves isSlash (slash :: path)) ↔ Confined (moves isSlash path) := by
  rw [moves_sep_cons isSlash slash path (by decide), confined_stay_cons]

theorem belowRoot_append_iff (root part : Str) (h : part = [] ∨ part.head? = some slash) :
    BelowRoot root (root ++ part) ↔ Confined (moves isSlash part) := by
  constructor
  · rintro ⟨part', heq, -, hc, -⟩
    rwa [List.append_cancel_left heq]
  · intro hc
    exact ⟨part, rfl, h, hc, hc.ends_below⟩

/-- The components of a path that lead somewhere else. -/
def steps (path : Str) : List (Move Str) := proper (moves isSlash path)

/-- Component by component, the path is the root and then a walk that never climbs above it. -/
def Inside (root path : Str) : Prop := ∃ part, steps path = steps root ++ part ∧ Confined part

theorem steps_append_slash (path part : Str) :
    steps (path ++ slash :: part) = steps path ++ steps part := by
  rw [steps, moves_append_sep isSlash path part slash (by decide), proper_append]
  rfl

theorem steps_nil : steps [] = [] := rfl

theorem steps_slash_cons (path : Str) : steps (slash :: path) = steps path := by
  unfold steps
  rw [moves_sep_cons isSlash slash path (by decide)]
  rfl

theorem cstr_slash_cons (a : Str) : cstr (slash :: a) = slash :: cstr a := by
  simpa using cstr_append (a := [slash]) (by decide) a

theorem moves_name {name : Str} (h : ∀ c ∈ name, isSlash c = false) :
    moves isSlash name = [toMove name] := by
  unfold moves
  rw [List.splitOnP_eq_singleton h]
  rfl

theorem steps_dropLast {path : Str} (h : path.getLast? = some slash) :
    steps path.dropLast = steps path := by
  conv_rhs => rw [← List.dropLast_append_getLast? slash h, steps_append_slash, steps_nil, List.append_nil]

theorem inside_append_iff (root part : Str) :
    Inside root (root ++ slash :: part) ↔ NeverOutnumbered part := by
  rw [NeverOutnumbered, ← confined_iff_count, ← confined_proper, Inside, steps_append_slash]
  constructor
  · rintro ⟨part', heq, hc⟩
    rwa [← List.append_cancel_left heq] at hc
  · intro hc
    exact ⟨steps part, rfl, hc⟩

theorem inside_append_slash (root path : Str) : Inside root (path ++ [slash]) ↔ Inside root path := by
  rw [Inside, Inside, steps_append_slash, steps_nil, List.append_nil]

theorem Inside.ends_below {root path : Str} (h : Inside root path) {base top : List Str}
    (hroot : walk base (steps root) = some top) :
    ∃ q, walk base (steps path) = some (q ++ top) := by
  obtain ⟨part, heq, hc⟩ := h
  obtain ⟨q, hq⟩ := hc.ends_below top
  exact ⟨q, by rw [heq, walk_append_moves, hroot, Option.bind_some, hq]⟩

/-! ## Places -/

/-- Where an absolute path leads, by the names from the bottom up. -/
def place (path : Str) : List Str := arrive [] (steps path)

/-- On its way the path comes by the place where `stop` leads, or by one below it. -/
def LeadsThrough (path stop : Str) : Prop := ∃ way ∈ (steps path).inits, place stop <:+ arrive [] way

instance (path stop : Str) : Decidable (LeadsThrough path stop) :=
  inferInstanceAs (Decidable (∃ way ∈ (steps path).inits, place stop <:+ arrive [] way))

theorem leadsThrough_of_place_eq {path stop : Str} (h : place path = place stop) :
    LeadsThrough path stop :=
  ⟨steps path, (List.mem_inits _ _).mpr List.prefix_rfl, h ▸ List.suffix_rfl⟩

theorem LeadsThrough.below {path stop below : Str} {part : List (Move Str)}
    (h : LeadsThrough path below) (hpath : steps below = steps stop ++ part)
    (hpart : ∀ m ∈ part, 0 ≤ m.rise) : LeadsThrough path stop := by
  obtain ⟨way, hway, hbelow⟩ := h
  refine ⟨way, hway, List.IsSuffix.trans ?_ hbelow⟩
  rw [place, place, hpath, arrive_append]
  exact suffix_arrive _ hpart

end MyServer.Files
