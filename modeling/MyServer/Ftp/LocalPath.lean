import MyServer.Files.FileSystem

/-!
# From an FTP argument to a local path

`Ftp::buildLocalPath`, `Ftp::getLocalPath` and the working directory that
`Ftp::cwd` moves.
-/

open MyServer.Walk MyServer.Files

namespace MyServer.Ftp

/-- What the mapping takes from the server. The strings come from C strings. -/
structure FtpHost where
  documentRoot : Str
  systemRoot : Str
  /-- `getdefaultwd`. -/
  wd : Str
  documentRoot_cstr : (0 : Byte) ∉ documentRoot
  wd_cstr : (0 : Byte) ∉ wd

variable (host : FtpHost)

/-- What stands after the document root: the working directory, unless the argument is absolute,
and the argument, unless it starts with a dash. -/
def clientPart (m_cwd sPathIn : Str) : Str :=
  (if sPathIn.head? = some slash then [] else m_cwd) ++
    (if sPathIn.head? = some (ch '-') then [] else sPathIn)

def completedPath (m_cwd sPathIn : Str) : Str :=
  completePath host.wd
    (host.documentRoot ++ (if host.documentRoot = [] then [] else [slash]) ++
      clientPart m_cwd sPathIn)

/-- `Ftp::buildLocalPath`: the local path, or `none` with the reply 550. -/
def buildLocalPath (fs : FileSystem) (m_cwd sPathIn : Str) : Except FileError (Option Str) :=
  let sOutPath := completedPath host m_cwd sPathIn
  let sDocRoot := completePath host.wd host.documentRoot
  if getPathRecursionLevel sDocRoot > getPathRecursionLevel sOutPath then .ok none
  else (isDirectory fs sOutPath).map fun isDir =>
    some (if isDir = true ∧ ¬ sOutPath.getLast?.any isSep then sOutPath ++ [slash] else sOutPath)

def getLocalPath (fs : FileSystem) (m_cwd sPath : Str) : Except FileError (Option Str) := do
  match ← buildLocalPath host fs m_cwd sPath with
  | none => .ok none
  | some sOutPath =>
    if sOutPath = [] ∨ ¬ nodeExists fs sOutPath then .ok none
    else .ok (if ← isLink fs sOutPath then none else some sOutPath)

def changeDirectory (m_cwd sPath : Str) : Str :=
  let m_cwd := if sPath.head? = some slash then [] else m_cwd
  if sPath = [dot, dot] then
    if slash ∈ m_cwd then (m_cwd.reverse.dropWhile (· ≠ slash)).reverse else m_cwd
  else if sPath = [dot] then m_cwd
  else (if m_cwd ≠ [] ∧ m_cwd.getLast? ≠ some slash then m_cwd ++ [slash] else m_cwd) ++ sPath

/-- `Ftp::cwd` for a user who is logged in: the working directory after the command. -/
def cwd (fs : FileSystem) (m_cwd sPath : Str) : Except FileError Str := do
  match ← getLocalPath host fs m_cwd sPath with
  | none => .ok m_cwd
  | some sLocalPath =>
    .ok (if ← isDirectory fs sLocalPath then changeDirectory m_cwd sPath else m_cwd)

/-- The working directories that CWD commands lead to, whatever the file system says to each. -/
inductive Reachable : Str → Prop where
  | start : Reachable []
  | cwd {m_cwd m_cwd' : Str} (fs : FileSystem) (sPath : Str) (h : Reachable m_cwd)
      (hcwd : cwd host fs m_cwd sPath = .ok m_cwd') : Reachable m_cwd'

/-! ## Inside the document root -/

/-- The document root as a complete path. The server that has none serves its working directory. -/
def rootPath : Str :=
  if host.documentRoot = [] then host.wd else completePath host.wd host.documentRoot

def Accepts (fs : FileSystem) (m_cwd sPathIn : Str) : Prop :=
  getPathRecursionLevel (completePath host.wd host.documentRoot) ≤
      getPathRecursionLevel (completedPath host m_cwd sPathIn) ∧
    nodeExists fs (completedPath host m_cwd sPathIn)

/-- What the client spells after the root never climbs above it. Without a document root an absolute
path has to spell the root first. -/
def SpelledInside (m_cwd sPathIn : Str) : Prop :=
  if host.documentRoot = [] ∧ (clientPart m_cwd sPathIn).head? = some slash then
    Inside host.wd (cstr (clientPart m_cwd sPathIn))
  else NeverOutnumbered (cstr (clientPart m_cwd sPathIn))

theorem cstr_append_slash (a : Str) : cstr (a ++ [slash]) = cstr a ∨
    cstr (a ++ [slash]) = cstr a ++ [slash] := by
  by_cases h : (0 : Byte) ∈ a
  · exact Or.inl (cstr_append_of_mem h [slash])
  · right
    have ha : cstr a = a := by simpa [cstr] using cstr_append h []
    rw [ha, cstr_append h]
    rfl

/-- The path is the root, a slash and what the client spelled, unless there is no root. -/
theorem cstr_completedPath (m_cwd sPathIn : Str)
    (h : ¬ (host.documentRoot = [] ∧ (clientPart m_cwd sPathIn).head? = some slash)) :
    cstr (completedPath host m_cwd sPathIn) =
      rootPath host ++ slash :: cstr (clientPart m_cwd sPathIn) := by
  have hwd := host.wd_cstr
  have hdoc := host.documentRoot_cstr
  unfold completedPath rootPath completePath
  by_cases hnil : host.documentRoot = []
  · have hhead : (clientPart m_cwd sPathIn).head? ≠ some slash := fun hh => h ⟨hnil, hh⟩
    simp only [hnil, if_true, List.nil_append]
    rw [if_neg hhead, List.append_assoc, cstr_append hwd, List.singleton_append, cstr_slash_cons,
      cstr_cstr]
  · simp only [hnil, if_false, List.append_assoc, List.singleton_append]
    rw [List.head?_append_of_ne_nil _ hnil]
    split_ifs
    · rw [cstr_append hdoc, cstr_slash_cons]
    · have hd : cstr host.documentRoot = host.documentRoot := by
        simpa [cstr] using cstr_append hdoc []
      rw [cstr_append hwd, cstr_slash_cons, cstr_cstr, cstr_append hdoc, cstr_slash_cons, hd]
      simp

theorem inside_completedPath_iff (m_cwd sPathIn : Str) :
    Inside (rootPath host) (cstr (completedPath host m_cwd sPathIn)) ↔
      SpelledInside host m_cwd sPathIn := by
  unfold SpelledInside
  split_ifs with h
  · -- The client's path is the whole path.
    have hpath : completedPath host m_cwd sPathIn = clientPart m_cwd sPathIn := by
      simp [completedPath, completePath, h.1, h.2]
    rw [hpath, rootPath, if_pos h.1]
  · rw [cstr_completedPath host m_cwd sPathIn h, inside_append_iff]

theorem buildLocalPath_accepts {fs : FileSystem} {m_cwd sPathIn : Str}
    (h : Accepts host fs m_cwd sPathIn) :
    ∃ path, buildLocalPath host fs m_cwd sPathIn = .ok (some path) ∧
      (path = completedPath host m_cwd sPathIn ∨
        path = completedPath host m_cwd sPathIn ++ [slash]) := by
  obtain ⟨hlevel, hexists⟩ := h
  unfold nodeExists at hexists
  simp only [buildLocalPath, isDirectory]
  rw [if_neg (by omega)]
  cases hstat : fs.stat (cstr (completedPath host m_cwd sPathIn)) with
  | error e => simp [hstat, Except.isOk, Except.toBool] at hexists
  | ok kind =>
    refine ⟨_, rfl, ?_⟩
    split
    · exact Or.inr rfl
    · exact Or.inl rfl

theorem buildLocalPath_refuses {fs : FileSystem} {m_cwd sPathIn : Str}
    (h : ¬ Accepts host fs m_cwd sPathIn) (path : Str) :
    buildLocalPath host fs m_cwd sPathIn ≠ .ok (some path) := by
  intro hrun
  apply h
  simp only [buildLocalPath, isDirectory] at hrun
  split at hrun
  · simp at hrun
  refine ⟨by omega, ?_⟩
  cases hstat : fs.stat (cstr (completedPath host m_cwd sPathIn)) with
  | error e =>
    rw [hstat] at hrun
    exact absurd hrun (by simp [Except.map])
  | ok kind => simp [nodeExists, hstat, Except.isOk, Except.toBool]

theorem getLocalPath_exists {fs : FileSystem} {m_cwd sPath path : Str}
    (h : getLocalPath host fs m_cwd sPath = .ok (some path)) : nodeExists fs path = true := by
  obtain ⟨r, -, h⟩ := except_bind_eq_ok h
  cases r with
  | none => simp at h
  | some sOutPath =>
    dsimp only at h
    split at h
    · simp at h
    rename_i hexists
    obtain ⟨isLink, -, h⟩ := except_bind_eq_ok h
    have hpath := Except.ok.inj h
    split at hpath
    · simp at hpath
    · obtain rfl := Option.some.inj hpath
      by_contra hn
      exact hexists (Or.inr hn)

/-- **Confinement of the local paths.** For every working directory, an accepted path lies inside the
document root exactly when what the client spelled does. -/
theorem buildLocalPath_inside_iff (fs : FileSystem) (m_cwd sPathIn : Str) :
    (∀ path, buildLocalPath host fs m_cwd sPathIn = .ok (some path) →
        Inside (rootPath host) (cstr path)) ↔
      ¬ Accepts host fs m_cwd sPathIn ∨ SpelledInside host m_cwd sPathIn := by
  rw [← inside_completedPath_iff]
  by_cases h : Accepts host fs m_cwd sPathIn
  · obtain ⟨path, hrun, hpath⟩ := buildLocalPath_accepts host h
    have hsame : Inside (rootPath host) (cstr path) ↔
        Inside (rootPath host) (cstr (completedPath host m_cwd sPathIn)) := by
      rcases hpath with rfl | rfl
      · rfl
      · rcases cstr_append_slash (completedPath host m_cwd sPathIn) with heq | heq
        · rw [heq]
        · rw [heq, inside_append_slash]
    rw [← hsame]
    simp only [hrun, Except.ok.injEq, Option.some.injEq, h, not_true, false_or]
    exact ⟨fun hall => hall path rfl, fun hp p hpp => hpp ▸ hp⟩
  · simp only [h, not_false_eq_true, true_or, iff_true]
    intro path hrun
    exact absurd hrun (buildLocalPath_refuses host h path)

def srvFtp : FtpHost where
  documentRoot := ascii "/srv/ftp"
  systemRoot := ascii "/srv/sys"
  wd := ascii "/"
  documentRoot_cstr := by decide
  wd_cstr := by decide

def allFiles : FileSystem where
  stat _ := .ok .file
  lstat _ := .ok .file

/-- From the first working directory on, `/../other/file` is accepted: its net level is that of the
document root, and one more. -/
theorem buildLocalPath_escapes :
    ¬ ∀ (host : FtpHost) (fs : FileSystem) (m_cwd sPathIn path : Str), Reachable host m_cwd →
      buildLocalPath host fs m_cwd sPathIn = .ok (some path) →
      Inside (rootPath host) (cstr path) := by
  intro h
  obtain ⟨part, heq, hc⟩ := h srvFtp allFiles [] (ascii "/../other/file")
    (ascii "/srv/ftp//../other/file") .start rfl
  have hsteps : steps (cstr (ascii "/srv/ftp//../other/file")) =
      steps (rootPath srvFtp) ++ [.up, .down (ascii "other"), .down (ascii "file")] := by decide
  rw [hsteps] at heq
  rw [← List.append_cancel_left heq] at hc
  exact absurd (hc 1) (by decide)

end MyServer.Ftp
