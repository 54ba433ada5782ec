import MyServer.Ftp.CheckRights
import MyServer.Ftp.LocalPath

/-!
# The working directory of an FTP session

What a run of CWD and CDUP commands makes of the text that is kept, against the directory that the commands lead to.
-/

open MyServer.Walk MyServer.Files

namespace MyServer.Ftp

inductive DirectoryCommand where
  | cwd (path : Str) (path_cstr : (0 : Byte) ∉ path)
  | cdup

/-- CDUP is parsed as CWD with two dots. -/
def DirectoryCommand.sPath : DirectoryCommand → Str
  | .cwd path _ => path
  | .cdup => [dot, dot]

theorem DirectoryCommand.sPath_cstr (c : DirectoryCommand) : (0 : Byte) ∉ c.sPath := by
  cases c with
  | cwd path path_cstr => exact path_cstr
  | cdup => decide

variable (host : FtpHost)

/-! ## Runs -/

/-- The directory that `cwd` finds, before it moves. -/
def checked (fs : FileSystem) (m_cwd sPath : Str) : Except FileError (Option Str) := do
  match ← getLocalPath host fs m_cwd sPath with
  | none => .ok none
  | some sLocalPath => .ok (if ← isDirectory fs sLocalPath then some sLocalPath else none)

theorem cwd_eq (fs : FileSystem) (m_cwd sPath : Str) : cwd host fs m_cwd sPath =
    (checked host fs m_cwd sPath).map fun found => if found.isSome then changeDirectory m_cwd sPath else m_cwd := by
  unfold cwd checked
  cases getLocalPath host fs m_cwd sPath with
  | error e => rfl
  | ok path =>
    cases path with
    | none => rfl
    | some sLocalPath =>
      cases hdir : isDirectory fs sLocalPath with
      | error e => simp [bind, Except.bind, Except.map, hdir]
      | ok isDir => cases isDir <;> simp [bind, Except.bind, Except.map, hdir]

/-- The reply is 250. -/
def accepted (fs : FileSystem) (m_cwd sPath : Str) : Bool :=
  match checked host fs m_cwd sPath with
  | .ok (some _) => true
  | _ => false

/-- The working directories with the arguments of the commands that were accepted on the way. -/
inductive Reached : Str → List Str → Prop where
  | start : Reached [] []
  | command {m_cwd m_cwd' : Str} {sPaths : List Str} (fs : FileSystem) (c : DirectoryCommand) (h : Reached m_cwd sPaths)
      (hcwd : cwd host fs m_cwd c.sPath = .ok m_cwd') :
      Reached m_cwd' (if accepted host fs m_cwd c.sPath then sPaths ++ [c.sPath] else sPaths)

theorem Reached.reachable {host : FtpHost} {m_cwd : Str} {sPaths : List Str} (h : Reached host m_cwd sPaths) :
    Reachable host m_cwd := by
  induction h with
  | start => exact .start
  | command fs c _ hcwd ih => exact .cwd fs c.sPath ih hcwd

/-! ## What the commands lead to -/

def goes (pos : List Str) (sPath : Str) : List Str :=
  arrive (if sPath.head? = some slash then place (rootPath host) else pos) (steps sPath)

/-- One after the other from the root. -/
def applied (sPaths : List Str) : List Str := sPaths.foldl (goes host) (place (rootPath host))

/-- An argument that begins with a dash stands for options. -/
def Resolves (m_cwd : Str) (sPaths : List Str) : Prop :=
  ∀ (fs : FileSystem) (sPathIn path : Str), (0 : Byte) ∉ sPathIn → sPathIn.head? ≠ some slash →
    sPathIn.head? ≠ some (ch '-') → buildLocalPath host fs m_cwd sPathIn = .ok (some path) →
      place (cstr path) = arrive (applied host sPaths) (steps sPathIn)

/-- The command moves to the directory that was checked. -/
def MovesTo (m_cwd sPath : Str) : Prop :=
  ∀ (fs : FileSystem) (path : Str), checked host fs m_cwd sPath = .ok (some path) →
    place (cstr (completedPath host (changeDirectory m_cwd sPath) [])) = place (cstr path)

/-- The argument leaves the text ready for the next one, and is not left out of the check. -/
def Meets (sPath : Str) : Prop :=
  (sPath = [] ∨ sPath = [dot] ∨ (sPath.getLast? = some slash ∧ sPath.head? ≠ some (ch '-'))) ∧
    (host.documentRoot = [] → sPath.head? ≠ some slash)

/-! ## Paths -/

section

variable {host : FtpHost} {fs : FileSystem} {m_cwd sPath path part : Str}

theorem buildLocalPath_path (h : buildLocalPath host fs m_cwd sPath = .ok (some path)) :
    path = completedPath host m_cwd sPath ∨ path = completedPath host m_cwd sPath ++ [slash] := by
  unfold buildLocalPath at h
  dsimp only at h
  split_ifs at h
  · exact absurd (Except.ok.inj h) (by simp)
  · cases hdir : isDirectory fs (completedPath host m_cwd sPath) with
    | error e =>
      rw [hdir] at h
      exact absurd h (by simp [Except.map])
    | ok isDir =>
      rw [hdir] at h
      have hpath := Option.some.inj (Except.ok.inj h)
      split_ifs at hpath
      · exact .inr hpath.symm
      · exact .inl hpath.symm

/-- A slash at the end leads nowhere else. -/
theorem place_buildLocalPath (h : buildLocalPath host fs m_cwd sPath = .ok (some path)) :
    place (cstr path) = place (cstr (completedPath host m_cwd sPath)) := by
  obtain rfl | rfl := buildLocalPath_path h
  · rfl
  · obtain heq | heq := cstr_append_slash (completedPath host m_cwd sPath)
    · rw [heq]
    · rw [heq, place, place, steps_append_slash, steps_nil, List.append_nil]

theorem place_checked (h : checked host fs m_cwd sPath = .ok (some path)) :
    place (cstr path) = place (cstr (completedPath host m_cwd sPath)) := by
  obtain ⟨found, hfound, h⟩ := except_bind_eq_ok h
  cases found with
  | none => exact absurd (Except.ok.inj h) (by simp)
  | some sLocalPath =>
    obtain ⟨isDir, -, h⟩ := except_bind_eq_ok h
    have hpath := Except.ok.inj h
    split_ifs at hpath
    obtain rfl := Option.some.inj hpath
    obtain ⟨built, hbuilt, hget⟩ := except_bind_eq_ok hfound
    cases built with
    | none => exact absurd (Except.ok.inj hget) (by simp)
    | some sOutPath =>
      dsimp only at hget
      split_ifs at hget
      · exact absurd (Except.ok.inj hget) (by simp)
      · obtain ⟨isLink, -, hget⟩ := except_bind_eq_ok hget
        have heq := Except.ok.inj hget
        split_ifs at heq
        rw [← Option.some.inj heq]
        exact place_buildLocalPath hbuilt

theorem steps_append_open (h : m_cwd = [] ∨ m_cwd.getLast? = some slash) (part : Str) :
    steps (m_cwd ++ part) = steps m_cwd ++ steps part := by
  obtain rfl | hlast := h
  · rfl
  · obtain ⟨front, rfl⟩ := List.getLast?_eq_some_iff.mp hlast
    rw [List.append_assoc, List.singleton_append, steps_append_slash, steps_append_slash, steps_nil, List.append_nil]

/-- The local path is the root and what the client spelled. -/
theorem place_completedPath (hpart : (0 : Byte) ∉ clientPart m_cwd sPath)
    (h : ¬ (host.documentRoot = [] ∧ (clientPart m_cwd sPath).head? = some slash)) :
    place (cstr (completedPath host m_cwd sPath)) =
      arrive (place (rootPath host)) (steps (clientPart m_cwd sPath)) := by
  rw [cstr_completedPath host m_cwd sPath h, place, place, steps_append_slash, arrive_append, cstr_of_notMem hpart]

end

/-! ## What the commands keep -/

/-- The text is ready for an argument, and leads where the commands do. -/
structure Whole (m_cwd : Str) (sPaths : List Str) : Prop where
  cstr : (0 : Byte) ∉ m_cwd
  ready : m_cwd = [] ∨ m_cwd.getLast? = some slash
  below : host.documentRoot = [] → m_cwd.head? ≠ some slash
  leads : arrive (place (rootPath host)) (steps m_cwd) = applied host sPaths

variable {host} {m_cwd sPath : Str} {sPaths : List Str}

theorem whole_start : Whole host [] [] := ⟨by simp, .inl rfl, fun _ => by simp, rfl⟩

theorem Meets.head_ne_dash (h : Meets host sPath) : sPath.head? ≠ some (ch '-') := by
  obtain ⟨rfl | rfl | ⟨-, hdash⟩, -⟩ := h
  · simp
  · decide
  · exact hdash

theorem Meets.ne_dots (h : Meets host sPath) : sPath ≠ [dot, dot] := by
  rintro rfl
  obtain ⟨hdots | hdots | ⟨hdots, -⟩, -⟩ := h
  · exact absurd hdots (by decide)
  · exact absurd hdots (by decide)
  · exact absurd hdots (by decide)

theorem clientPart_of_meets (h : Meets host sPath) (m_cwd : Str) :
    clientPart m_cwd sPath = (if sPath.head? = some slash then [] else m_cwd) ++ sPath := by
  rw [clientPart, if_neg h.head_ne_dash]

/-- The argument is put behind the text, but for a single dot. -/
theorem changeDirectory_of_meets (h : Meets host sPath) (hready : m_cwd = [] ∨ m_cwd.getLast? = some slash) :
    changeDirectory m_cwd sPath = if sPath = [dot] then m_cwd else clientPart m_cwd sPath := by
  rw [clientPart_of_meets h]
  unfold changeDirectory
  simp only [if_neg h.ne_dots]
  by_cases hdot : sPath = [dot]
  · have habs : sPath.head? ≠ some slash := by
      rw [hdot]
      decide
    simp only [if_pos hdot, if_neg habs]
  · simp only [if_neg hdot]
    by_cases habs : sPath.head? = some slash
    · simp only [if_pos habs, ne_eq, not_true, false_and, if_false]
    · have hopen : ¬ (m_cwd ≠ [] ∧ m_cwd.getLast? ≠ some slash) :=
        not_and.mpr fun hne => not_not.mpr (hready.resolve_left hne)
      simp only [if_neg habs, if_neg hopen]

/-- The text without a slash in front is the client's part that is below the root. -/
theorem Whole.part (h : Whole host m_cwd sPaths) (hcstr : (0 : Byte) ∉ sPath) (hdash : sPath.head? ≠ some (ch '-'))
    (habs : host.documentRoot = [] → sPath.head? ≠ some slash) : (0 : Byte) ∉ clientPart m_cwd sPath ∧
      ¬ (host.documentRoot = [] ∧ (clientPart m_cwd sPath).head? = some slash) := by
  rw [clientPart, if_neg hdash]
  constructor
  · rw [List.mem_append, not_or]
    refine ⟨?_, hcstr⟩
    split_ifs
    · simp
    · exact h.cstr
  · rintro ⟨hroot, hhead⟩
    rw [if_neg (habs hroot)] at hhead
    obtain hnil | hlast := h.ready
    · rw [hnil, List.nil_append] at hhead
      exact habs hroot hhead
    · have hne : m_cwd ≠ [] := by
        rintro rfl
        exact absurd hlast (by simp)
      rw [List.head?_append_of_ne_nil _ hne] at hhead
      exact h.below hroot hhead

/-- The check and the commands lead to the same directory. -/
theorem Whole.arrive_part (h : Whole host m_cwd sPaths) (hdash : sPath.head? ≠ some (ch '-')) :
    arrive (place (rootPath host)) (steps (clientPart m_cwd sPath)) = goes host (applied host sPaths) sPath := by
  rw [clientPart, if_neg hdash, goes]
  split_ifs
  · rw [List.nil_append]
  · rw [steps_append_open h.ready, arrive_append, h.leads]

theorem applied_concat (sPaths : List Str) (sPath : Str) :
    applied host (sPaths ++ [sPath]) = goes host (applied host sPaths) sPath := by
  rw [applied, List.foldl_append]
  rfl

/-- **A command that meets the condition keeps the text whole.** -/
theorem Whole.step (h : Whole host m_cwd sPaths) (hcstr : (0 : Byte) ∉ sPath) (hmeets : Meets host sPath) :
    Whole host (changeDirectory m_cwd sPath) (sPaths ++ [sPath]) := by
  obtain ⟨hpart, hbelow⟩ := h.part hcstr hmeets.head_ne_dash hmeets.2
  have harrive := h.arrive_part hmeets.head_ne_dash
  rw [changeDirectory_of_meets hmeets h.ready]
  split_ifs with hdot
  · refine ⟨h.cstr, h.ready, h.below, ?_⟩
    rw [applied_concat, hdot, h.leads]
    rfl
  · refine ⟨hpart, ?_, fun hroot hhead => hbelow ⟨hroot, hhead⟩, ?_⟩
    · rw [clientPart_of_meets hmeets]
      obtain rfl | hdot' | ⟨hlast, -⟩ := hmeets.1
      · simpa using h.ready
      · exact absurd hdot' hdot
      · exact .inr (by rw [List.getLast?_append, hlast]; rfl)
    · rw [applied_concat, harrive]

theorem Whole.resolves (h : Whole host m_cwd sPaths) : Resolves host m_cwd sPaths := by
  intro fs sPathIn path hcstr habs hdash hbuild
  obtain ⟨hpart, hbelow⟩ := h.part hcstr hdash fun _ => habs
  rw [place_buildLocalPath hbuild, place_completedPath hpart hbelow, h.arrive_part hdash, goes, if_neg habs]

theorem Whole.movesTo (h : Whole host m_cwd sPaths) (hcstr : (0 : Byte) ∉ sPath) (hmeets : Meets host sPath) :
    MovesTo host m_cwd sPath := by
  intro fs path hchecked
  obtain ⟨hpart, hbelow⟩ := h.part hcstr hmeets.head_ne_dash hmeets.2
  have hnext := h.step hcstr hmeets
  obtain ⟨hpart', hbelow'⟩ := @Whole.part host _ [] _ hnext (by simp) (by simp) (fun _ => by simp)
  rw [place_checked hchecked, place_completedPath hpart hbelow, place_completedPath hpart' hbelow',
    hnext.arrive_part (by simp), h.arrive_part hmeets.head_ne_dash, applied_concat]
  rfl

theorem Reached.whole (h : Reached host m_cwd sPaths) (hmeets : ∀ sPath ∈ sPaths, Meets host sPath) :
    Whole host m_cwd sPaths := by
  induction h with
  | start => exact whole_start
  | @command m_cwd m_cwd' sPaths fs c _ hcwd ih =>
    rw [cwd_eq] at hcwd
    unfold accepted at hmeets ⊢
    cases hchecked : checked host fs m_cwd c.sPath with
    | error e =>
      rw [hchecked] at hcwd
      exact absurd hcwd (by simp [Except.map])
    | ok found =>
      rw [hchecked] at hcwd hmeets
      have hmoved := Except.ok.inj hcwd
      cases found with
      | none =>
        rw [← hmoved]
        exact ih hmeets
      | some path =>
        rw [← hmoved]
        have hall : ∀ sPath ∈ sPaths ++ [c.sPath], Meets host sPath := hmeets
        exact (ih fun sPath hsPath => hall sPath (List.mem_append_left _ hsPath)).step c.sPath_cstr
          (hall c.sPath (List.mem_append_right _ List.mem_cons_self))

/-- **Where a session is.** After commands that met the condition, a relative argument is resolved in the directory
that they lead to, and the next one that meets it moves to the directory that is checked. -/
theorem Reached.directory (h : Reached host m_cwd sPaths) (hmeets : ∀ sPath ∈ sPaths, Meets host sPath) :
    Resolves host m_cwd sPaths ∧ ∀ c : DirectoryCommand, Meets host c.sPath → MovesTo host m_cwd c.sPath :=
  ⟨(h.whole hmeets).resolves, fun c hc => (h.whole hmeets).movesTo c.sPath_cstr hc⟩

/-! ## One command -/

theorem reached_slash : Reached srvFtp [ch 'a', slash] [[ch 'a', slash]] :=
  .command allDirectories (.cwd [ch 'a', slash] (by decide)) .start rfl

/-- With a slash at the end. -/
theorem directory_slash : Resolves srvFtp [ch 'a', slash] [[ch 'a', slash]] ∧
    ∀ c : DirectoryCommand, Meets srvFtp c.sPath → MovesTo srvFtp [ch 'a', slash] c.sPath :=
  reached_slash.directory (by
    intro sPath hsPath
    rw [List.mem_singleton.mp hsPath]
    exact ⟨.inr (.inr (by decide)), by decide⟩)

theorem reached_name : Reached srvFtp [ch 'a'] [[ch 'a']] :=
  .command allDirectories (.cwd [ch 'a'] (by decide)) .start rfl

/-- Behind `CWD a` the argument `b` is resolved as `ab`. -/
theorem not_directory : ¬ ∀ (host : FtpHost) (m_cwd : Str) (sPaths : List Str), Reached host m_cwd sPaths →
    Resolves host m_cwd sPaths ∧ ∀ c : DirectoryCommand, MovesTo host m_cwd c.sPath := by
  intro h
  have hplace := (h srvFtp [ch 'a'] [[ch 'a']] reached_name).1 allDirectories [ch 'b']
    (completedPath srvFtp [ch 'a'] [ch 'b'] ++ [slash]) (by decide) (by decide) (by decide) rfl
  exact absurd hplace (by decide)

end MyServer.Ftp
