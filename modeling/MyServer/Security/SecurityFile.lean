import MyServer.Lib.Separated
import MyServer.Security.Cache

/-!
# The search for a security file

`SecurityCache::getSecurityFile` for every directory, against the files that there are.
-/

open MyServer.Separated

namespace MyServer.SecurityFile

/-! ## The code -/

section

variable (nodeExists : Str → Bool)

/-- `file.erase (i--, 1)` as long as there is a slash. For an empty path that is the byte in front of the text, and
`erase` throws. -/
def trimmed (before : Byte) (dir : Str) : Option Str :=
  if dir = [] then if before = ch '/' then none else some dir
  else some (SecurityCache.trim dir (dir.length - 1))

/-- The loop over the bytes of the path: where it ends, and what it leaves of the path. -/
def cut (file : Str) : Nat → Nat × Str
  | 0 => (0, file)
  | i + 1 => if file.getD (i + 1) 0 = ch '/' then (i + 1, file.take (i + 1)) else cut file i

/-- The loop over the directories, with zero or another value for what it returns. -/
def search (sys secFileName : Str) : Nat → Str → Str → Option (Str × Bool)
  | 0, _, _ => none
  | fuel + 1, file, secFile =>
    if file = [] then some (secFile, true)
    else
      let upper := cut file (file.length - 1)
      if upper.1 = 0 then
        let out := sys ++ [ch '/'] ++ secFileName
        some (out, nodeExists out)
      else
        let secFile := upper.2 ++ [ch '/'] ++ secFileName
        if nodeExists secFile then some (secFile, true) else search sys secFileName fuel upper.2 secFile

def getSecurityFile (before : Byte) (dir sys secFileName : Str) : Option (Str × Bool) :=
  (trimmed before dir).bind fun file =>
    let secFile := dir ++ [ch '/'] ++ secFileName
    if nodeExists secFile then some (secFile, true)
    else search nodeExists sys secFileName (file.length + 1) file secFile

end

/-! ## What it is to find -/

/-- What a path denotes. -/
structure Place where
  absolute : Bool
  names : List Str
  deriving DecidableEq

def place (path : Str) : Place := ⟨path.head? = some (ch '/'), runs (ch '/') path⟩

/-- There is a file where the path leads. -/
def fileExists (files : Place → Bool) (path : Str) : Bool := files (place path)

section

variable (files : Place → Bool) (dir sys secFileName : Str)

/-- A security file of the directory that so many names of `dir` lead to. -/
def fileOf (names : List Str) : Place :=
  ⟨(place (dir ++ [ch '/'])).absolute, names ++ runs (ch '/') secFileName⟩

/-- The directory itself, and the ones above it but the root. -/
def Candidate (names : List Str) : Prop :=
  names = runs (ch '/') dir ∨ (names ≠ [] ∧ names <+: runs (ch '/') dir)

def Contains (names : List Str) : Prop := files (fileOf dir secFileName names) = true

/-- The deepest directory with a file, or the one of the system. -/
def Nearest (out : Str) (success : Bool) : Prop :=
  (∃ names, Candidate dir names ∧ Contains files dir secFileName names ∧
    (∀ other, Candidate dir other → Contains files dir secFileName other → other.length ≤ names.length) ∧
      place out = fileOf dir secFileName names ∧ success = true) ∨
  ((∀ names, Candidate dir names → ¬ Contains files dir secFileName names) ∧
    place out = place (sys ++ [ch '/'] ++ secFileName) ∧
      success = files (place (sys ++ [ch '/'] ++ secFileName)))

def Finds (before : Byte) : Prop :=
  ∃ out success, getSecurityFile (fileExists files) before dir sys secFileName = some (out, success) ∧
    Nearest files dir sys secFileName out success

/-- Without a name in the path there is only the root, and it has to have a file. With two slashes in front of a name
the root is looked at, after the others. -/
def Safe (before : Byte) : Prop :=
  (dir = [] → before ≠ ch '/' ∧ files ⟨true, runs (ch '/') secFileName⟩ = true) ∧
    ([ch '/', ch '/'] <+: dir → runs (ch '/') dir ≠ [] → files ⟨true, runs (ch '/') secFileName⟩ = true →
      (∃ names, Candidate dir names ∧ Contains files dir secFileName names) ∨
        place (sys ++ [ch '/'] ++ secFileName) = ⟨true, runs (ch '/') secFileName⟩)

end

/-! ## The loops -/

section

variable (nodeExists : Str → Bool) (sys secFileName : Str)

theorem climb_succ (file : Str) (i : Nat) : SecurityCache.climb nodeExists file sys secFileName (i + 1) =
    if file.getD (i + 1) 0 = ch '/' ∧ nodeExists (file.take (i + 1) ++ [ch '/'] ++ secFileName) then
      some (file.take (i + 1) ++ [ch '/'] ++ secFileName)
    else SecurityCache.climb nodeExists file sys secFileName i := rfl

/-- What is at the indexes that are not looked at does not count. -/
theorem climb_take {file : Str} {n i : Nat} (h : i < n) :
    SecurityCache.climb nodeExists (file.take n) sys secFileName i =
      SecurityCache.climb nodeExists file sys secFileName i := by
  induction i with
  | zero => rfl
  | succ i ih =>
    rw [climb_succ, climb_succ, ih (Nat.lt_of_succ_lt h), List.take_take, Nat.min_eq_left h.le]
    have hget : (file.take n).getD (i + 1) 0 = file.getD (i + 1) 0 := by
      simp only [List.getD_eq_getElem?_getD, List.getElem?_take_of_lt h]
    rw [hget]

/-- One directory up. -/
theorem climb_cut (file : Str) (i : Nat) : SecurityCache.climb nodeExists file sys secFileName i =
    if (cut file i).1 = 0 then SecurityCache.climb nodeExists file sys secFileName 0
    else if nodeExists ((cut file i).2 ++ [ch '/'] ++ secFileName) then
      some ((cut file i).2 ++ [ch '/'] ++ secFileName)
    else SecurityCache.climb nodeExists (cut file i).2 sys secFileName ((cut file i).2.length - 1) := by
  induction i with
  | zero => rfl
  | succ i ih =>
    rw [climb_succ, cut]
    by_cases hslash : file.getD (i + 1) 0 = ch '/'
    · have hlength : (file.take (i + 1)).length = i + 1 := by
        rw [List.length_take, Nat.min_eq_left]
        by_contra hlt
        rw [List.getD_eq_getElem?_getD, List.getElem?_eq_none (by omega)] at hslash
        exact absurd hslash (by decide)
      simp only [hslash, true_and, if_true, Nat.succ_ne_zero, if_false, hlength, Nat.add_sub_cancel]
      rw [climb_take nodeExists sys secFileName (Nat.lt_succ_self i)]
    · simp only [hslash, false_and, if_false]
      exact ih

theorem cut_snd {file : Str} {i : Nat} (h : (cut file i).1 ≠ 0) :
    (cut file i).2 = file.take (cut file i).1 ∧ (cut file i).1 ≤ i := by
  induction i with
  | zero => exact absurd rfl h
  | succ i ih =>
    rw [cut] at h ⊢
    split_ifs at h ⊢ with hslash
    · exact ⟨rfl, le_rfl⟩
    · obtain ⟨htake, hle⟩ := ih h
      exact ⟨htake, hle.trans (Nat.le_succ i)⟩

/-- The path gets shorter with each directory, and the search ends where the one with an index does. -/
theorem search_eq {fuel : Nat} {file : Str} (hne : file ≠ []) (hfuel : file.length ≤ fuel) (secFile : Str) :
    search nodeExists sys secFileName fuel file secFile =
      some (match SecurityCache.climb nodeExists file sys secFileName (file.length - 1) with
        | some out => (out, true)
        | none => (sys ++ [ch '/'] ++ secFileName, false)) := by
  induction fuel generalizing file secFile with
  | zero => exact absurd (List.length_eq_zero_iff.mp (Nat.le_zero.mp hfuel)) hne
  | succ fuel ih =>
    rw [search, if_neg hne, climb_cut]
    dsimp only
    split_ifs with htop hexists
    · rw [SecurityCache.climb]
      cases hsys : nodeExists (sys ++ [ch '/'] ++ secFileName) <;> rfl
    · rfl
    · obtain ⟨htake, hle⟩ := cut_snd htop
      have hpos := List.length_pos_iff.mpr hne
      have hlength : (cut file (file.length - 1)).2.length = (cut file (file.length - 1)).1 := by
        rw [htake, List.length_take]
        omega
      refine ih ?_ (by omega) _
      rw [← List.length_pos_iff]
      omega

end

theorem trim_ne_nil {dir : Str} (hne : dir ≠ []) (i : Nat) : SecurityCache.trim dir i ≠ [] := by
  have hpos := List.length_pos_iff.mpr hne
  induction i with
  | zero =>
    rw [SecurityCache.trim, ← List.length_pos_iff, List.length_take]
    omega
  | succ i ih =>
    rw [SecurityCache.trim]
    split_ifs
    · exact ih
    · rw [← List.length_pos_iff, List.length_take]
      omega

/-- For a path that is not empty this is the search of the cache, and what it gives when no file is found. -/
theorem getSecurityFile_eq (nodeExists : Str → Bool) (before : Byte) (dir : SecurityCache.Directory)
    (sys secFileName : Str) : getSecurityFile nodeExists before dir.val sys secFileName =
      some (match SecurityCache.getSecurityFile nodeExists dir sys secFileName with
        | some out => (out, true)
        | none => (sys ++ [ch '/'] ++ secFileName, false)) := by
  unfold getSecurityFile SecurityCache.getSecurityFile trimmed
  rw [if_neg dir.property, Option.bind_some]
  dsimp only
  split_ifs
  · rfl
  · exact search_eq nodeExists sys secFileName (trim_ne_nil dir.property _) (Nat.le_succ _) _

/-! ## The directories that are looked at -/

/-- A directory above: the path up to a slash. -/
def Above (file upper : Str) : Prop := upper ≠ [] ∧ ∃ rest, file = upper ++ ch '/' :: rest

section

variable {file upper other : Str} {i : Nat}

theorem above_take (hi : i + 1 < file.length) (hslash : file.getD (i + 1) 0 = ch '/') :
    Above file (file.take (i + 1)) := by
  have hget : file[i + 1] = ch '/' := by
    rw [List.getD_eq_getElem?_getD, List.getElem?_eq_getElem hi, Option.getD_some] at hslash
    exact hslash
  refine ⟨?_, file.drop (i + 2), ?_⟩
  · rw [← List.length_pos_iff, List.length_take]
    omega
  · rw [← hget, ← List.drop_eq_getElem_cons hi, List.take_append_drop]

theorem Above.slash (h : Above file upper) (hlength : upper.length = i + 1) :
    file.getD (i + 1) 0 = ch '/' ∧ file.take (i + 1) = upper := by
  obtain ⟨-, rest, rfl⟩ := h
  rw [← hlength]
  simp

theorem Above.length_lt (h : Above file upper) : upper.length < file.length := by
  obtain ⟨-, rest, rfl⟩ := h
  simp

/-- Of two of them the longer one is below the other. -/
theorem Above.runs_le (h : Above file upper) (hother : Above file other) (hle : other.length ≤ upper.length) :
    (runs (ch '/') other).length ≤ (runs (ch '/') upper).length := by
  obtain ⟨-, rest, rfl⟩ := h
  obtain ⟨-, rest', heq⟩ := hother
  obtain ⟨a, ha, -⟩ | ⟨a, ha, hrest⟩ := List.append_eq_append_iff.mp heq
  · have hnil : a = [] := by
      rw [ha, List.length_append] at hle
      exact List.length_eq_zero_iff.mp (by omega)
    rw [ha, hnil, List.append_nil]
  · cases a with
    | nil => rw [ha, List.append_nil]
    | cons b a =>
      rw [List.cons_append, List.cons.injEq] at hrest
      rw [ha, ← hrest.1, runs_append_cons, List.length_append]
      exact Nat.le_add_right _ _

end

section

variable (nodeExists : Str → Bool) (sys secFileName : Str)

/-- The longest path above with a file, or the directory of the system. -/
theorem climb_spec {file : Str} {i : Nat} (hi : i < file.length) :
    (∃ upper, Above file upper ∧ upper.length ≤ i ∧ nodeExists (upper ++ [ch '/'] ++ secFileName) = true ∧
      SecurityCache.climb nodeExists file sys secFileName i = some (upper ++ [ch '/'] ++ secFileName) ∧
      ∀ other, Above file other → other.length ≤ i → nodeExists (other ++ [ch '/'] ++ secFileName) = true →
        other.length ≤ upper.length) ∨
    ((∀ upper, Above file upper → upper.length ≤ i → nodeExists (upper ++ [ch '/'] ++ secFileName) = false) ∧
      SecurityCache.climb nodeExists file sys secFileName i =
        if nodeExists (sys ++ [ch '/'] ++ secFileName) then some (sys ++ [ch '/'] ++ secFileName) else none) := by
  induction i with
  | zero =>
    refine .inr ⟨fun upper habove hle => ?_, rfl⟩
    exact absurd (List.length_eq_zero_iff.mp (Nat.le_zero.mp hle)) habove.1
  | succ i ih =>
    rw [climb_succ]
    by_cases hfound : file.getD (i + 1) 0 = ch '/' ∧ nodeExists (file.take (i + 1) ++ [ch '/'] ++ secFileName)
    · have hlength : (file.take (i + 1)).length = i + 1 := by
        rw [List.length_take]
        omega
      refine .inl ⟨_, above_take hi hfound.1, hlength.le, hfound.2, if_pos hfound, fun other _ hle _ => ?_⟩
      rwa [hlength]
    · rw [if_neg hfound]
      -- Of this length there is none.
      have hnone : ∀ upper, Above file upper → upper.length = i + 1 →
          nodeExists (upper ++ [ch '/'] ++ secFileName) = false := by
        intro upper habove hlength
        obtain ⟨hslash, htake⟩ := habove.slash hlength
        rw [← htake]
        exact Bool.eq_false_iff.mpr fun hexists => hfound ⟨hslash, hexists⟩
      obtain ⟨upper, habove, hle, hexists, hclimb, hlongest⟩ | ⟨hnot, hclimb⟩ := ih (Nat.lt_of_succ_lt hi)
      · refine .inl ⟨upper, habove, hle.trans (Nat.le_succ i), hexists, hclimb, fun other hother hle' hfile => ?_⟩
        obtain hlt | heq := Nat.lt_or_eq_of_le hle'
        · exact hlongest other hother (Nat.le_of_lt_succ hlt) hfile
        · rw [hnone other hother heq] at hfile
          exact absurd hfile (by simp)
      · refine .inr ⟨fun upper habove hle' => ?_, hclimb⟩
        obtain hlt | heq := Nat.lt_or_eq_of_le hle'
        · exact hnot upper habove (Nat.le_of_lt_succ hlt)
        · exact hnone upper habove heq

end

/-! ## Slashes at the end -/

theorem runs_append_slashes {tail : Str} (h : ∀ c ∈ tail, c = ch '/') (path : Str) :
    runs (ch '/') (path ++ tail) = runs (ch '/') path := by
  cases tail with
  | nil => rw [List.append_nil]
  | cons c tail =>
    obtain ⟨rfl, htail⟩ := List.forall_mem_cons.mp h
    rw [runs_append_cons, (runs_eq_nil_iff tail).mpr htail, List.append_nil]

theorem trim_spec {dir : Str} {i : Nat} (hi : i < dir.length) (h : ∀ c ∈ dir.drop (i + 1), c = ch '/') :
    (∃ tail, dir = SecurityCache.trim dir i ++ tail ∧ ∀ c ∈ tail, c = ch '/') ∧
      ((SecurityCache.trim dir i).length = 1 ∨
        ∃ front c, SecurityCache.trim dir i = front ++ [c] ∧ c ≠ ch '/') := by
  induction i with
  | zero =>
    refine ⟨⟨dir.drop 1, (List.take_append_drop 1 dir).symm, h⟩, .inl ?_⟩
    rw [SecurityCache.trim, List.length_take]
    omega
  | succ i ih =>
    have hget : dir.getD (i + 1) 0 = dir[i + 1] := by
      rw [List.getD_eq_getElem?_getD, List.getElem?_eq_getElem hi, Option.getD_some]
    rw [SecurityCache.trim]
    split_ifs with hslash
    · refine ih (Nat.lt_of_succ_lt hi) ?_
      rw [List.drop_eq_getElem_cons hi, List.forall_mem_cons, ← hget]
      exact ⟨hslash, h⟩
    · refine ⟨⟨dir.drop (i + 2), (List.take_append_drop _ dir).symm, h⟩, .inr ⟨dir.take (i + 1), dir[i + 1], ?_, ?_⟩⟩
      · rw [List.take_add_one, List.getElem?_eq_getElem hi]
        rfl
      · rwa [← hget]

/-- What the search begins with: the path without the slashes at its end. -/
structure Trimmed (dir file : Str) : Prop where
  ne_nil : file ≠ []
  tail : ∃ tail, dir = file ++ tail ∧ ∀ c ∈ tail, c = ch '/'
  last : file.length = 1 ∨ ∃ front c, file = front ++ [c] ∧ c ≠ ch '/'

theorem trimmed_trim {dir : Str} (hne : dir ≠ []) : Trimmed dir (SecurityCache.trim dir (dir.length - 1)) := by
  have hpos := List.length_pos_iff.mpr hne
  obtain ⟨htail, hlast⟩ := @trim_spec dir (dir.length - 1) (by omega) (by
    rw [List.drop_of_length_le (by omega)]
    simp)
  exact ⟨trim_ne_nil hne _, htail, hlast⟩

namespace Trimmed

variable {dir file upper secFileName : Str} (h : Trimmed dir file)
include h

theorem runs_eq : runs (ch '/') file = runs (ch '/') dir := by
  obtain ⟨tail, rfl, htail⟩ := h.tail
  rw [runs_append_slashes htail]

theorem head_eq (habove : Above file upper) : dir.head? = upper.head? := by
  obtain ⟨tail, rfl, -⟩ := h.tail
  obtain ⟨hne, rest, rfl⟩ := habove
  obtain ⟨c, upper, rfl⟩ := List.exists_cons_of_ne_nil hne
  rfl

theorem fileOf_eq (names : List Str) :
    fileOf dir secFileName names = ⟨dir.head? = some (ch '/'), names ++ runs (ch '/') secFileName⟩ := by
  obtain ⟨tail, rfl, -⟩ := h.tail
  obtain ⟨c, file, rfl⟩ := List.exists_cons_of_ne_nil h.ne_nil
  rfl

theorem place_dir : place (dir ++ [ch '/'] ++ secFileName) = fileOf dir secFileName (runs (ch '/') dir) := by
  rw [h.fileOf_eq, place, List.append_assoc, List.singleton_append, runs_append_cons]
  obtain ⟨tail, rfl, -⟩ := h.tail
  obtain ⟨c, file, rfl⟩ := List.exists_cons_of_ne_nil h.ne_nil
  rfl

theorem place_above (habove : Above file upper) :
    place (upper ++ [ch '/'] ++ secFileName) = fileOf dir secFileName (runs (ch '/') upper) := by
  rw [h.fileOf_eq, h.head_eq habove, place, List.append_assoc, List.singleton_append, runs_append_cons]
  obtain ⟨c, upper, rfl⟩ := List.exists_cons_of_ne_nil habove.1
  rfl

theorem runs_above (habove : Above file upper) : runs (ch '/') upper <+: runs (ch '/') dir := by
  rw [← h.runs_eq]
  obtain ⟨-, rest, rfl⟩ := habove
  exact ⟨_, (runs_append_cons _ _).symm⟩

/-- Every directory above but the root is looked at. -/
theorem exists_above {names : List Str} (hne : names ≠ []) (hpre : names <+: runs (ch '/') dir)
    (hproper : names ≠ runs (ch '/') dir) : ∃ upper, Above file upper ∧ runs (ch '/') upper = names := by
  obtain ⟨rest, hrest⟩ := hpre
  have hrest' : rest ≠ [] := by
    rintro rfl
    exact hproper (by simpa using hrest)
  rw [← h.runs_eq] at hrest
  obtain ⟨upper, behind, hfile, hupper, -⟩ := exists_cut hrest.symm hne hrest'
  refine ⟨upper, ⟨?_, behind, hfile⟩, hupper⟩
  rintro rfl
  exact hne hupper.symm

theorem runs_ne_nil (hlength : file.length ≠ 1) : runs (ch '/') dir ≠ [] := by
  obtain ⟨front, c, hfile, hc⟩ := h.last.resolve_left hlength
  rw [← h.runs_eq]
  intro hnil
  exact hc ((runs_eq_nil_iff file).mp hnil c (by simp [hfile]))

/-- The root is looked at when two slashes stand in front of a name. -/
theorem root_above (habove : Above file upper) (hnil : runs (ch '/') upper = []) :
    [ch '/', ch '/'] <+: dir ∧ runs (ch '/') dir ≠ [] := by
  refine ⟨?_, h.runs_ne_nil ?_⟩
  · obtain ⟨tail, rfl, -⟩ := h.tail
    obtain ⟨hne, rest, rfl⟩ := habove
    have hall := (runs_eq_nil_iff upper).mp hnil
    match upper, hne with
    | [c], _ => exact ⟨rest ++ tail, by simp [hall c]⟩
    | c :: d :: upper, _ => exact ⟨upper ++ ch '/' :: rest ++ tail, by simp [hall c, hall d]⟩
  · have hlt := habove.length_lt
    have hpos := List.length_pos_iff.mpr habove.1
    omega

theorem above_root (hslashes : [ch '/', ch '/'] <+: dir) (hne : runs (ch '/') dir ≠ []) : Above file [ch '/'] := by
  refine ⟨by simp, ?_⟩
  rw [← h.runs_eq] at hne
  obtain ⟨tail, rfl, -⟩ := h.tail
  match file, h.ne_nil with
  | [c], _ =>
    rw [List.singleton_append, List.cons_prefix_cons] at hslashes
    rw [← hslashes.1] at hne
    exact absurd (runs_cons []) hne
  | c :: d :: file, _ =>
    rw [List.cons_append, List.cons_append, List.cons_prefix_cons, List.cons_prefix_cons] at hslashes
    exact ⟨file, by rw [← hslashes.1, ← hslashes.2.1]; rfl⟩

end Trimmed

/-! ## The nearest file -/

section

variable {files : Place → Bool} {dir sys secFileName : Str}

theorem Candidate.of_above {file upper : Str} (h : Trimmed dir file) (habove : Above file upper)
    (hne : runs (ch '/') upper ≠ []) : Candidate dir (runs (ch '/') upper) := .inr ⟨hne, h.runs_above habove⟩

theorem Candidate.length_le {names : List Str} (h : Candidate dir names) :
    names.length ≤ (runs (ch '/') dir).length := by
  obtain rfl | ⟨-, hpre⟩ := h
  · exact le_rfl
  · exact hpre.length_le

/-- The directory itself has a file. -/
theorem nearest_dir {file : Str} (h : Trimmed dir file)
    (hdir : fileExists files (dir ++ [ch '/'] ++ secFileName) = true) :
    Nearest files dir sys secFileName (dir ++ [ch '/'] ++ secFileName) true := by
  rw [fileExists, h.place_dir] at hdir
  exact .inl ⟨runs (ch '/') dir, .inl rfl, hdir, fun other hother _ => hother.length_le, h.place_dir, rfl⟩

/-- A candidate with a file that is not the directory itself is above it. -/
theorem Candidate.above {file : Str} (h : Trimmed dir file)
    (hdir : fileExists files (dir ++ [ch '/'] ++ secFileName) = false) {names : List Str} (hnames : Candidate dir names)
    (hfile : Contains files dir secFileName names) :
    ∃ upper, Above file upper ∧ runs (ch '/') upper = names ∧ names ≠ [] ∧
      fileExists files (upper ++ [ch '/'] ++ secFileName) = true := by
  have hproper : names ≠ runs (ch '/') dir := by
    rintro rfl
    rw [fileExists, h.place_dir] at hdir
    exact absurd hfile (by rw [Contains, hdir]; simp)
  obtain ⟨hne, hpre⟩ := hnames.resolve_left hproper
  obtain ⟨upper, habove, rfl⟩ := h.exists_above hne hpre hproper
  refine ⟨upper, habove, rfl, hne, ?_⟩
  rw [fileExists, h.place_above habove]
  exact hfile

/-- What the search gives of the directories above. -/
theorem nearest_above_iff {file : Str} (h : Trimmed dir file)
    (hdir : fileExists files (dir ++ [ch '/'] ++ secFileName) = false) {upper : Str} (habove : Above file upper)
    (hupper : fileExists files (upper ++ [ch '/'] ++ secFileName) = true)
    (hlongest : ∀ other, Above file other → fileExists files (other ++ [ch '/'] ++ secFileName) = true →
      other.length ≤ upper.length) :
    Nearest files dir sys secFileName (upper ++ [ch '/'] ++ secFileName) true ↔
      (runs (ch '/') upper = [] → place (sys ++ [ch '/'] ++ secFileName) = fileOf dir secFileName []) := by
  have hfile : Contains files dir secFileName (runs (ch '/') upper) := by
    rw [fileExists, h.place_above habove] at hupper
    exact hupper
  have hmost : ∀ other, Candidate dir other → Contains files dir secFileName other →
      other ≠ [] ∧ other.length ≤ (runs (ch '/') upper).length := by
    intro other hother hcontains
    obtain ⟨path, hpath, rfl, hne, hexists⟩ := hother.above h hdir hcontains
    exact ⟨hne, habove.runs_le hpath (hlongest path hpath hexists)⟩
  constructor
  · rintro (⟨names, hnames, hcontains, -⟩ | ⟨-, hplace, -⟩) hnil
    · obtain ⟨hne, hle⟩ := hmost names hnames hcontains
      rw [hnil] at hle
      exact absurd (List.length_eq_zero_iff.mp (Nat.le_zero.mp hle)) hne
    · rw [← hplace, h.place_above habove, hnil]
  · intro hroot
    by_cases hnil : runs (ch '/') upper = []
    · refine .inr ⟨fun names hnames hcontains => ?_, ?_, ?_⟩
      · obtain ⟨hne, hle⟩ := hmost names hnames hcontains
        rw [hnil] at hle
        exact hne (List.length_eq_zero_iff.mp (Nat.le_zero.mp hle))
      · rw [hroot hnil, h.place_above habove, hnil]
      · rw [hroot hnil, ← hnil]
        exact hfile.symm
    · exact .inl ⟨_, .of_above h habove hnil, hfile, fun other hother hcontains => (hmost other hother hcontains).2,
        h.place_above habove, rfl⟩

/-- What the search ends with when there is no file above. -/
theorem nearest_sys {file : Str} (h : Trimmed dir file)
    (hdir : fileExists files (dir ++ [ch '/'] ++ secFileName) = false)
    (hnone : ∀ upper, Above file upper → fileExists files (upper ++ [ch '/'] ++ secFileName) = false) :
    Nearest files dir sys secFileName (sys ++ [ch '/'] ++ secFileName)
      (fileExists files (sys ++ [ch '/'] ++ secFileName)) := by
  refine .inr ⟨fun names hnames hcontains => ?_, rfl, rfl⟩
  obtain ⟨upper, habove, -, -, hexists⟩ := hnames.above h hdir hcontains
  rw [hnone upper habove] at hexists
  exact absurd hexists (by simp)

theorem fileOf_root (hslashes : [ch '/', ch '/'] <+: dir) :
    fileOf dir secFileName [] = ⟨true, runs (ch '/') secFileName⟩ := by
  obtain ⟨rest, rfl⟩ := hslashes
  rfl

/-- The directories above decide about a root that has two slashes. -/
theorem longest_above_iff {file : Str} (h : Trimmed dir file)
    (hdir : fileExists files (dir ++ [ch '/'] ++ secFileName) = false) {upper : Str} (habove : Above file upper)
    (hupper : fileExists files (upper ++ [ch '/'] ++ secFileName) = true)
    (hlongest : ∀ other, Above file other → fileExists files (other ++ [ch '/'] ++ secFileName) = true →
      other.length ≤ upper.length) :
    (runs (ch '/') upper = [] → place (sys ++ [ch '/'] ++ secFileName) = fileOf dir secFileName []) ↔
      ([ch '/', ch '/'] <+: dir → runs (ch '/') dir ≠ [] → files ⟨true, runs (ch '/') secFileName⟩ = true →
        (∃ names, Candidate dir names ∧ Contains files dir secFileName names) ∨
          place (sys ++ [ch '/'] ++ secFileName) = ⟨true, runs (ch '/') secFileName⟩) := by
  have hplace : place (upper ++ [ch '/'] ++ secFileName) = fileOf dir secFileName (runs (ch '/') upper) :=
    h.place_above habove
  rw [fileExists, hplace] at hupper
  constructor
  · intro hroot hslashes _ _
    by_cases hnil : runs (ch '/') upper = []
    · exact .inr ((hroot hnil).trans (fileOf_root hslashes))
    · exact .inl ⟨_, .of_above h habove hnil, hupper⟩
  · intro hsafe hnil
    obtain ⟨hslashes, hne⟩ := h.root_above habove hnil
    rw [hnil, fileOf_root hslashes] at hupper
    obtain ⟨names, hnames, hcontains⟩ | hsys := hsafe hslashes hne hupper
    · obtain ⟨path, hpath, rfl, hne', hexists⟩ := hnames.above h hdir hcontains
      have hle := habove.runs_le hpath (hlongest path hpath hexists)
      rw [hnil] at hle
      exact absurd (List.length_eq_zero_iff.mp (Nat.le_zero.mp hle)) hne'
    · rw [hsys, fileOf_root hslashes]

theorem finds_iff_of_eq {before : Byte} {out : Str} {success : Bool}
    (h : getSecurityFile (fileExists files) before dir sys secFileName = some (out, success)) :
    Finds files dir sys secFileName before ↔ Nearest files dir sys secFileName out success := by
  constructor
  · rintro ⟨out', success', h', hnearest⟩
    obtain ⟨rfl, rfl⟩ := Prod.mk.inj (Option.some.inj (h.symm.trans h'))
    exact hnearest
  · exact fun hnearest => ⟨out, success, h, hnearest⟩

theorem finds_of_ne_nil_iff (before : Byte) (hne : dir ≠ []) : Finds files dir sys secFileName before ↔
    ([ch '/', ch '/'] <+: dir → runs (ch '/') dir ≠ [] → files ⟨true, runs (ch '/') secFileName⟩ = true →
      (∃ names, Candidate dir names ∧ Contains files dir secFileName names) ∨
        place (sys ++ [ch '/'] ++ secFileName) = ⟨true, runs (ch '/') secFileName⟩) := by
  have h := trimmed_trim hne
  have heq := getSecurityFile_eq (fileExists files) before ⟨dir, hne⟩ sys secFileName
  have hpos := List.length_pos_iff.mpr h.ne_nil
  rw [SecurityCache.getSecurityFile] at heq
  dsimp only at heq
  cases hdir : fileExists files (dir ++ [ch '/'] ++ secFileName) with
  | true =>
    rw [if_pos hdir] at heq
    rw [finds_iff_of_eq heq]
    refine iff_of_true (nearest_dir h hdir) fun _ _ _ => .inl ⟨_, .inl rfl, ?_⟩
    rw [fileExists, h.place_dir] at hdir
    exact hdir
  | false =>
    rw [if_neg (Bool.eq_false_iff.mp hdir)] at heq
    have hle : ∀ {path}, Above (SecurityCache.trim dir (dir.length - 1)) path →
        path.length ≤ (SecurityCache.trim dir (dir.length - 1)).length - 1 :=
      fun habove => Nat.le_sub_one_of_lt habove.length_lt
    obtain ⟨upper, habove, -, hupper, hclimb, hlongest⟩ | ⟨hnone, hclimb⟩ :=
      climb_spec (fileExists files) sys secFileName
        (Nat.sub_lt hpos Nat.one_pos)
    · rw [hclimb] at heq
      have hlongest' := fun other hother => hlongest other hother (hle hother)
      rw [finds_iff_of_eq heq, nearest_above_iff h hdir habove hupper hlongest',
        longest_above_iff h hdir habove hupper hlongest']
    · have hvalue : getSecurityFile (fileExists files) before dir sys secFileName =
          some (sys ++ [ch '/'] ++ secFileName, fileExists files (sys ++ [ch '/'] ++ secFileName)) := by
        rw [heq, hclimb]
        cases fileExists files (sys ++ [ch '/'] ++ secFileName) <;> rfl
      have hnone' := fun upper habove => hnone upper habove (hle habove)
      rw [finds_iff_of_eq hvalue]
      refine iff_of_true (nearest_sys h hdir hnone') fun hslashes hne' hroot => ?_
      have habove := h.above_root hslashes hne'
      have hexists := hnone' _ habove
      rw [fileExists, h.place_above habove, runs_cons, runs_nil, fileOf_root hslashes, hroot] at hexists
      exact absurd hexists (by simp)

/-- The empty path: the file of the root is given, whether there is one or not. -/
theorem nearest_nil_iff : Nearest files [] sys secFileName ([] ++ [ch '/'] ++ secFileName) true ↔
    files ⟨true, runs (ch '/') secFileName⟩ = true := by
  have hplace : place ([] ++ [ch '/'] ++ secFileName) = ⟨true, runs (ch '/') secFileName⟩ := by
    rw [place, List.nil_append, List.singleton_append, runs_cons]
    rfl
  have hfile : fileOf [] secFileName [] = ⟨true, runs (ch '/') secFileName⟩ := rfl
  have hcandidate : ∀ names, Candidate [] names → names = [] := by
    rintro names (rfl | ⟨hne, hpre⟩)
    · rfl
    · exact absurd (List.prefix_nil.mp hpre) hne
  constructor
  · rintro (⟨names, hnames, hcontains, -⟩ | ⟨-, hsys, hexists⟩)
    · rw [hcandidate names hnames] at hcontains
      exact hcontains
    · rw [← hsys, hplace] at hexists
      exact hexists.symm
  · intro hroot
    refine .inl ⟨[], .inl rfl, hroot, fun other hother _ => ?_, hplace, rfl⟩
    rw [hcandidate other hother]

/-- **When the search gives the nearest file.** -/
theorem finds_iff (files : Place → Bool) (dir sys secFileName : Str) (before : Byte) :
    Finds files dir sys secFileName before ↔ Safe files dir sys secFileName before := by
  by_cases hdir : dir = []
  · subst hdir
    have hslashes : ¬ [ch '/', ch '/'] <+: ([] : Str) := by simp
    by_cases hbefore : before = ch '/'
    · refine iff_of_false ?_ fun h => (h.1 rfl).1 hbefore
      rintro ⟨out, success, h, -⟩
      simp [getSecurityFile, trimmed, hbefore] at h
    · have hvalue : getSecurityFile (fileExists files) before [] sys secFileName =
          some ([] ++ [ch '/'] ++ secFileName, true) := by
        rw [getSecurityFile, trimmed, if_pos rfl, if_neg hbefore, Option.bind_some]
        dsimp only
        split_ifs <;> rfl
      rw [finds_iff_of_eq hvalue, nearest_nil_iff, Safe]
      simp [hbefore]
  · rw [finds_of_ne_nil_iff before hdir, Safe]
    simp only [hdir, false_imp_iff, true_and]

/-- With the empty path a file is given that does not exist. -/
theorem not_finds : ¬ ∀ (files : Place → Bool) (dir sys secFileName : Str) (before : Byte),
    Finds files dir sys secFileName before := by
  intro h
  have hvalue : getSecurityFile (fileExists fun _ => false) 0 [] [ch 's'] [ch 'f'] =
      some ([] ++ [ch '/'] ++ [ch 'f'], true) := by decide
  have hroot := nearest_nil_iff.mp ((finds_iff_of_eq hvalue).mp (h (fun _ => false) [] [ch 's'] [ch 'f'] 0))
  exact absurd hroot (by simp)

end

end MyServer.SecurityFile
