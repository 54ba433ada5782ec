import MyServer.Log.RotatedName

/-!
# Paths that are split twice

`FilesUtility::splitPath` and `getFileExt` for a `char*` (files_utility.cpp), beside those for a `std::string`.
-/

open MyServer.Rotation (getFileExt)

namespace MyServer.Files

/-! ## For a `char*` -/

namespace Chars

/-- The loop: `i` and `splitpoint` at the end. -/
def splitLoop : Str → Nat → Nat → Nat × Nat
  | [], i, splitpoint => (i, splitpoint)
  | c :: path, i, splitpoint => splitLoop path (i + 1) (if isSep c then i else splitpoint)

/-- The directory and the file name. `none` is an `int` that overflows. -/
def splitPath (path : Str) : Option (Str × Str) :=
  let (i, splitpoint) := splitLoop (cstr path) 0 0
  if 2 ^ 31 ≤ i then none
  else
    some (if splitpoint ≠ 0 then (cstr path).take splitpoint ++ [slash] else [],
      ((cstr path).drop (splitpoint + if splitpoint ≠ 0 then 1 else 0)).take
        (i - splitpoint - if splitpoint ≠ 0 then 1 else 0))

/-- Back to a dot, but not to one at the first place. -/
def dotLoop (filename : Str) : Nat → Nat
  | 0 => 0
  | nDot + 1 => if filename[nDot + 1]? = some dot then nDot + 1 else dotLoop filename nDot

def getFileExt (filename : Str) : Str :=
  let nDot := dotLoop (cstr filename) ((cstr filename).length - 1)
  if 0 < nDot then (cstr filename).drop (nDot + 1) else []

end Chars

/-! ## Both -/

/-- Both split the path alike, nothing of it is lost, and both find the same extension. -/
def SplitsAlike (path : Str) : Prop :=
  ∃ dir filename, Chars.splitPath path = some (dir, filename) ∧ splitPath path = (dir, filename) ∧
    dir ++ filename = path ∧ (∀ c ∈ filename, isSep c = false) ∧ Chars.getFileExt path = getFileExt path

/-- The path has no separator, or a slash is the last one, and there is something in front of it that is no
separator. -/
def Separate (path : Str) : Prop :=
  (∀ c ∈ path, isSep c = false) ∨
    ∃ dir c filename, path = dir ++ c :: slash :: filename ∧ isSep c = false ∧ ∀ c ∈ filename, isSep c = false

/-- A path that nothing special is in. -/
structure PlainPath (path : Str) : Prop where
  text : (0 : Byte) ∉ path
  short : path.length < 2 ^ 31
  separate : Separate path
  dots : ¬∃ ext, path = dot :: ext ∧ ext ≠ [] ∧ dot ∉ ext

/-! ## The last separator -/

theorem exists_last {p : Byte → Bool} {path : Str} (h : ∃ c ∈ path, p c = true) :
    ∃ front c back, path = front ++ c :: back ∧ p c = true ∧ ∀ b ∈ back, p b = false := by
  induction path with
  | nil =>
    obtain ⟨c, hc, -⟩ := h
    cases hc
  | cons x path ih =>
    by_cases hrest : ∃ c ∈ path, p c = true
    · obtain ⟨front, c, back, rfl, hc, hback⟩ := ih hrest
      exact ⟨x :: front, c, back, rfl, hc, hback⟩
    · have hnone : ∀ b ∈ path, p b = false := fun b hb => Bool.not_eq_true _ ▸ fun hp => hrest ⟨b, hb, hp⟩
      obtain ⟨c, hc, hp⟩ := h
      rcases List.mem_cons.mp hc with rfl | hc
      · exact ⟨[], c, path, rfl, hp, hnone⟩
      · exact absurd ⟨c, hc, hp⟩ hrest

theorem splitLoop_none {path : Str} (h : ∀ c ∈ path, isSep c = false) (i splitpoint : Nat) :
    Chars.splitLoop path i splitpoint = (i + path.length, splitpoint) := by
  induction path generalizing i with
  | nil => rfl
  | cons c path ih =>
    obtain ⟨hc, hpath⟩ := List.forall_mem_cons.mp h
    rw [Chars.splitLoop, if_neg (by rw [hc]; exact Bool.false_ne_true), ih hpath, List.length_cons]
    congr 1
    omega

theorem splitLoop_last {front filename : Str} {c : Byte} (hc : isSep c = true)
    (hfilename : ∀ c ∈ filename, isSep c = false) (i splitpoint : Nat) :
    Chars.splitLoop (front ++ c :: filename) i splitpoint =
      (i + (front ++ c :: filename).length, i + front.length) := by
  induction front generalizing i splitpoint with
  | nil =>
    rw [List.nil_append, Chars.splitLoop, hc, splitLoop_none hfilename, List.length_cons]
    congr 1
    omega
  | cons x front ih =>
    rw [List.cons_append, Chars.splitLoop, ih, List.length_cons, List.length_cons]
    congr 1 <;> omega

theorem reverse_takeWhile {p : Byte → Bool} {front back : Str} {c : Byte} (hc : p c = false)
    (hback : ∀ b ∈ back, p b = true) : ((front ++ c :: back).reverse.takeWhile p).reverse = back := by
  have hall : ∀ b ∈ back.reverse, p b = true := fun b hb => hback b (List.mem_reverse.mp hb)
  rw [List.reverse_append, List.reverse_cons, List.append_assoc, List.takeWhile_append_of_pos hall,
    List.singleton_append, List.takeWhile_cons_of_neg (by simp [hc]), List.append_nil, List.reverse_reverse]

section

variable {front filename path : Str} {c : Byte}

theorem splitPath_last (hc : isSep c = true) (hfilename : ∀ c ∈ filename, isSep c = false) :
    splitPath (front ++ c :: filename) =
      (if front.getLast?.any isSep then front else front ++ [slash], filename) := by
  have hany : (front ++ c :: filename).any isSep = true := by
    rw [List.any_eq_true]
    exact ⟨c, List.mem_append_right _ List.mem_cons_self, hc⟩
  have hname : ((front ++ c :: filename).reverse.takeWhile fun c => !isSep c).reverse = filename :=
    reverse_takeWhile (by rw [hc]; rfl) fun b hb => by rw [hfilename b hb]; rfl
  have hcount : (front ++ c :: filename).length - filename.length - 1 = front.length := by
    rw [List.length_append, List.length_cons]
    omega
  unfold splitPath
  rw [if_pos hany]
  dsimp only
  rw [hname, hcount, List.take_left]

theorem splitPath_none (h : ∀ c ∈ path, isSep c = false) : splitPath path = ([], path) := by
  have hany : ¬path.any isSep = true := by
    rw [List.any_eq_true]
    rintro ⟨c, hc, hsep⟩
    rw [h c hc] at hsep
    cases hsep
  unfold splitPath
  rw [if_neg hany]

theorem chars_splitPath_last (hzero : (0 : Byte) ∉ front ++ c :: filename) (hc : isSep c = true)
    (hfilename : ∀ c ∈ filename, isSep c = false) (hshort : (front ++ c :: filename).length < 2 ^ 31) :
    Chars.splitPath (front ++ c :: filename) =
      some (if front = [] then ([], c :: filename) else (front ++ [slash], filename)) := by
  have hloop := @splitLoop_last front filename c hc hfilename 0 0
  rw [Nat.zero_add, Nat.zero_add] at hloop
  unfold Chars.splitPath
  rw [cstr_of_notMem hzero, hloop]
  dsimp only
  rw [if_neg (Nat.not_le.mpr hshort)]
  cases front with
  | nil => simp
  | cons x front =>
    have hne : (x :: front).length ≠ 0 := Nat.succ_ne_zero _
    have hdrop : (x :: front ++ c :: filename).drop ((x :: front).length + 1) = filename := by
      rw [← List.drop_drop, List.drop_left]
      rfl
    have hcount : (x :: front ++ c :: filename).length - (x :: front).length - 1 = filename.length := by
      rw [List.length_append, Nat.add_sub_cancel_left]
      rfl
    rw [if_pos hne, if_pos hne, List.take_left, hdrop, hcount, List.take_length, if_neg (List.cons_ne_nil _ _)]

theorem chars_splitPath_none (hzero : (0 : Byte) ∉ path) (h : ∀ c ∈ path, isSep c = false)
    (hshort : path.length < 2 ^ 31) : Chars.splitPath path = some ([], path) := by
  unfold Chars.splitPath
  rw [cstr_of_notMem hzero, splitLoop_none h, Nat.zero_add]
  dsimp only
  rw [if_neg (Nat.not_le.mpr hshort)]
  simp

/-! ## The extension -/

theorem dotLoop_eq {n k : Nat} (hk : k ≤ n) (hafter : ∀ j, k < j → j ≤ n → path[j]? ≠ some dot)
    (hat : k = 0 ∨ path[k]? = some dot) : Chars.dotLoop path n = k := by
  induction n with
  | zero => exact (Nat.le_zero.mp hk).symm
  | succ n ih =>
    rw [Chars.dotLoop]
    rcases Nat.eq_or_lt_of_le hk with rfl | hlt
    · rw [if_pos (hat.resolve_left (Nat.succ_ne_zero n))]
    · rw [if_neg (hafter (n + 1) hlt le_rfl)]
      exact ih (Nat.lt_succ_iff.mp hlt) fun j hj hle => hafter j hj (by omega)

/-- The extension for a `char*`: a dot in front of it all is none. -/
theorem chars_getFileExt_dot {ext : Str} (hzero : (0 : Byte) ∉ front ++ dot :: ext) (hdot : dot ∉ ext) :
    Chars.getFileExt (front ++ dot :: ext) = if front = [] then [] else ext := by
  have hplace : Chars.dotLoop (front ++ dot :: ext) ((front ++ dot :: ext).length - 1) = front.length := by
    apply dotLoop_eq
    · rw [List.length_append, List.length_cons]
      omega
    · intro j hj _ hread
      obtain ⟨i, rfl⟩ : ∃ i, j = front.length + (i + 1) := ⟨j - front.length - 1, by omega⟩
      rw [List.getElem?_append_right (Nat.le_add_right _ _), Nat.add_sub_cancel_left, List.getElem?_cons_succ] at hread
      exact hdot (List.mem_of_getElem? hread)
    · right
      simp
  unfold Chars.getFileExt
  rw [cstr_of_notMem hzero, hplace]
  dsimp only
  cases front with
  | nil => rfl
  | cons x front =>
    have hpos : 0 < (x :: front).length := Nat.succ_pos _
    rw [if_pos hpos, if_neg (List.cons_ne_nil _ _), ← List.drop_drop, List.drop_left]
    rfl

theorem chars_getFileExt_none (hzero : (0 : Byte) ∉ path) (hdot : dot ∉ path) : Chars.getFileExt path = [] := by
  have hplace : Chars.dotLoop path (path.length - 1) = 0 :=
    dotLoop_eq (Nat.zero_le _) (fun j _ _ hread => hdot (List.mem_of_getElem? hread)) (Or.inl rfl)
  unfold Chars.getFileExt
  rw [cstr_of_notMem hzero, hplace]
  rfl

theorem getFileExt_dot {ext : Str} (hdot : dot ∉ ext) : getFileExt (front ++ dot :: ext) = ext := by
  unfold getFileExt
  rw [if_pos (List.mem_append_right _ List.mem_cons_self)]
  apply reverse_takeWhile
  · simp
  · intro b hb
    have hne : b ≠ dot := fun heq => hdot (heq ▸ hb)
    simpa using hne

theorem getFileExt_alike_iff (hzero : (0 : Byte) ∉ path) :
    Chars.getFileExt path = getFileExt path ↔ ¬∃ ext, path = dot :: ext ∧ ext ≠ [] ∧ dot ∉ ext := by
  by_cases hmem : dot ∈ path
  · obtain ⟨front, c, ext, rfl, hc, hext⟩ := @exists_last (fun c => decide (c = dot)) path ⟨dot, hmem, by simp⟩
    obtain rfl : c = dot := by simpa using hc
    have hdot : dot ∉ ext := fun h => absurd (hext dot h) (by simp)
    rw [chars_getFileExt_dot hzero hdot, getFileExt_dot hdot]
    cases front with
    | nil =>
      rw [if_pos rfl]
      constructor
      · rintro hnil ⟨ext', hcons, hne, -⟩
        obtain ⟨-, rfl⟩ := List.cons.inj hcons
        exact hne hnil.symm
      · intro hnone
        by_contra hne
        exact hnone ⟨ext, rfl, fun h => hne h.symm, hdot⟩
    | cons x front =>
      rw [if_neg (List.cons_ne_nil _ _)]
      refine ⟨fun _ => ?_, fun _ => rfl⟩
      rintro ⟨ext', hcons, -, hnot⟩
      obtain ⟨-, rfl⟩ := List.cons.inj hcons
      exact hnot (List.mem_append_right _ List.mem_cons_self)
  · have hnone : getFileExt path = [] := if_neg hmem
    rw [chars_getFileExt_none hzero hmem, hnone]
    refine ⟨fun _ => ?_, fun _ => rfl⟩
    rintro ⟨ext, rfl, -⟩
    exact hmem List.mem_cons_self

/-! ## Both at once -/

/-- What the version for a `char*` gives has no NUL in it. -/
theorem zero_notMem_chars {dir filename : Str} (h : Chars.splitPath path = some (dir, filename)) :
    (0 : Byte) ∉ dir ++ filename := by
  have hzero := zero_notMem_cstr path
  unfold Chars.splitPath at h
  dsimp only at h
  split_ifs at h
  all_goals
    obtain ⟨rfl, rfl⟩ := Prod.mk.inj (Option.some.inj h)
    simp only [List.mem_append, not_or, List.mem_singleton]
    refine ⟨?_, fun hmem => hzero (List.mem_of_mem_drop (List.mem_of_mem_take hmem))⟩
  · exact ⟨fun hmem => hzero (List.mem_of_mem_take hmem), by decide⟩
  · exact List.not_mem_nil

theorem short_of_chars {both : Str × Str} (hzero : (0 : Byte) ∉ path) (h : Chars.splitPath path = some both) :
    path.length < 2 ^ 31 := by
  by_contra hlong
  have hlength : (Chars.splitLoop path 0 0).1 = path.length := by
    by_cases hsep : ∃ c ∈ path, isSep c = true
    · obtain ⟨front, c, filename, rfl, hc, hfilename⟩ := exists_last hsep
      rw [splitLoop_last hc hfilename, Nat.zero_add]
    · have hnone : ∀ c ∈ path, isSep c = false := fun c hc => Bool.not_eq_true _ ▸ fun hp => hsep ⟨c, hc, hp⟩
      rw [splitLoop_none hnone, Nat.zero_add]
  unfold Chars.splitPath at h
  rw [cstr_of_notMem hzero] at h
  dsimp only at h
  rw [hlength, if_pos (Nat.not_lt.mp hlong)] at h
  cases h

/-- **Both versions** agree on plain paths. -/
theorem splitsAlike_iff (path : Str) : SplitsAlike path ↔ PlainPath path := by
  constructor
  · rintro ⟨dir, filename, hchars, hstring, hwhole, -, hext⟩
    have hzero : (0 : Byte) ∉ path := hwhole ▸ zero_notMem_chars hchars
    have hshort := short_of_chars hzero hchars
    refine ⟨hzero, hshort, ?_, (getFileExt_alike_iff hzero).mp hext⟩
    by_cases hsep : ∃ c ∈ path, isSep c = true
    · right
      obtain ⟨front, c, back, rfl, hc, hback⟩ := exists_last hsep
      rw [splitPath_last hc hback] at hstring
      rw [chars_splitPath_last hzero hc hback hshort] at hchars
      obtain ⟨rfl, rfl⟩ := Prod.mk.inj hstring
      by_cases hempty : front = []
      · rw [if_pos hempty, hempty] at hchars
        exact absurd (Prod.mk.inj (Option.some.inj hchars)).1 (List.cons_ne_nil _ _).symm
      · rw [if_neg hempty] at hchars
        have hdir := (Prod.mk.inj (Option.some.inj hchars)).1
        obtain ⟨dir, d, rfl⟩ := (List.eq_nil_or_concat' front).resolve_left hempty
        rw [List.getLast?_concat, Option.any_some] at hdir hwhole
        split_ifs at hdir hwhole with hlast
        · have hlength := congrArg List.length hdir
          rw [@List.length_append _ (dir ++ [d])] at hlength
          simp at hlength
        · have hslash : slash = c := by simpa using hwhole
          refine ⟨dir, d, back, ?_, Bool.not_eq_true _ ▸ hlast, hback⟩
          rw [hslash, List.append_assoc]
          rfl
    · exact Or.inl fun c hc => Bool.not_eq_true _ ▸ fun hp => hsep ⟨c, hc, hp⟩
  · rintro ⟨hzero, hshort, hnone | ⟨dir, d, filename, rfl, hd, hfilename⟩, hdots⟩
    · exact ⟨[], path, chars_splitPath_none hzero hnone hshort, splitPath_none hnone, rfl, hnone,
        (getFileExt_alike_iff hzero).mpr hdots⟩
    · have hslash : isSep slash = true := by decide
      have hshape : dir ++ d :: slash :: filename = (dir ++ [d]) ++ slash :: filename := by
        rw [List.append_assoc]
        rfl
      rw [hshape] at hzero hshort hdots ⊢
      refine ⟨dir ++ [d] ++ [slash], filename, ?_, ?_, by simp, hfilename, (getFileExt_alike_iff hzero).mpr hdots⟩
      · rw [chars_splitPath_last hzero hslash hfilename hshort,
          if_neg (List.append_ne_nil_of_right_ne_nil _ (List.cons_ne_nil _ _))]
      · rw [splitPath_last hslash hfilename, List.getLast?_concat, Option.any_some, hd]
        rfl

end

/-- A file in the root directory. -/
theorem not_splitsAlike : ¬∀ path, SplitsAlike path := by
  intro hall
  obtain ⟨dir, filename, hchars, hstring, -⟩ := hall (ascii "/file")
  have hboth : Chars.splitPath (ascii "/file") = some ([], ascii "/file") ∧
      splitPath (ascii "/file") = (ascii "/", ascii "file") := by decide
  rw [hboth.1] at hchars
  rw [hboth.2, ← Option.some.inj hchars] at hstring
  exact absurd (Prod.mk.inj hstring).1 (by decide)

end MyServer.Files
