import MyServer.Files.Path

/-!
# The file system as the server asks it

`stat` and `lstat` are whatever the file system answers at one moment. A call
that `checked` makes throws what the error number is translated to.
-/

namespace MyServer.Files

inductive NodeKind where
  | directory
  | link
  | file
  deriving DecidableEq, Repr

/-- `ENOENT` has a class of its own; `other` is every other error number. -/
inductive FileError where
  | fileNotFound
  | other
  deriving DecidableEq, Repr

structure FileSystem where
  stat : Str → Except FileError NodeKind
  lstat : Str → Except FileError NodeKind

def isDirectory (fs : FileSystem) (path : Str) : Except FileError Bool :=
  (fs.stat (cstr path)).map fun kind => kind = .directory

def isLink (fs : FileSystem) (path : Str) : Except FileError Bool :=
  (fs.lstat (cstr path)).map fun kind => kind = .link

/-- `FilesUtility::nodeExists`, through the plain `stat`. -/
def nodeExists (fs : FileSystem) (path : Str) : Bool := (fs.stat (cstr path)).isOk

/-- `FilesUtility::completePath`, with what `getdefaultwd` returns. -/
def completePath (wd fileName : Str) : Str :=
  if fileName.head? = some slash then fileName else wd ++ [slash] ++ cstr fileName

/-- `FilesUtility::splitPath`: the directory and the file name. For a path whose only separator
comes first the source reads `dir[-1]`; the byte there is taken for no separator. -/
def splitPath (path : Str) : Str × Str :=
  if path.any isSep then
    let filename := (path.reverse.takeWhile fun c => !isSep c).reverse
    let dir := path.take (path.length - filename.length - 1)
    (if dir.getLast?.any isSep then dir else dir ++ [slash], filename)
  else ([], path)

theorem except_bind_eq_ok {ε α β : Type} {x : Except ε α} {f : α → Except ε β} {b : β}
    (h : (x >>= f) = .ok b) : ∃ a, x = .ok a ∧ f a = .ok b := by
  cases x with
  | error e => exact absurd h (by simp [bind, Except.bind])
  | ok a => exact ⟨a, rfl, h⟩

example : splitPath (ascii "/srv/ftp/.security.xml") =
    (ascii "/srv/ftp/", ascii ".security.xml") := by decide

end MyServer.Files
