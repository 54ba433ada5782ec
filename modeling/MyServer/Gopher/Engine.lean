import MyServer.Files.FileSystem

/-!
# The Gopher engine

From the line that a client sends to the menu or the file that it gets, with the
directories and files that are opened on the way.
-/

open MyServer.Walk MyServer.Files

namespace MyServer.Gopher

/-- The document root comes from a C string. -/
structure Vhost where
  documentRoot : Str
  documentRoot_cstr : (0 : Byte) ∉ documentRoot

/-- What `readdir` reads, and what `fstatat` says to it. -/
structure Dirent where
  name : Str
  isDirectory : Except FileError Bool
  no_slash : ∀ c ∈ name, isSlash c = false

/-- What the system and the MIME tables answer. -/
structure System where
  opendir : Str → Except FileError (List Dirent)
  openFile : Str → Except FileError Unit
  /-- `none` when fewer bytes come than `getFileSize` tells. -/
  read : Str → Except FileError (Option Str)
  getMIME : Str → Option Str

/-! ## Opening -/

/-- What has been opened, by the name given to the system, and how it ended. -/
structure Run (α : Type) where
  opened : List Str
  result : Except FileError α

namespace Run

variable {α β : Type}

def lift (result : Except FileError α) : Run α := ⟨[], result⟩

instance : Monad Run where
  pure a := ⟨[], .ok a⟩
  bind x f :=
    match x.result with
    | .error e => ⟨x.opened, .error e⟩
    | .ok a => ⟨x.opened ++ (f a).opened, (f a).result⟩

/-- Everything opened is as `p` says. -/
def Opens (p : Str → Prop) (x : Run α) : Prop := ∀ path ∈ x.opened, p path

variable {p : Str → Prop}

@[simp] theorem opens_pure (a : α) : Opens p (pure a) := by
  rintro path ⟨⟩

@[simp] theorem opens_lift (result : Except FileError α) : Opens p (lift result) := by
  rintro path ⟨⟩

theorem bind_ok {x : Run α} {a : α} (h : x.result = .ok a) (f : α → Run β) :
    x >>= f = ⟨x.opened ++ (f a).opened, (f a).result⟩ := by
  simp only [bind, h]

theorem bind_error {x : Run α} {e : FileError} (h : x.result = .error e) (f : α → Run β) :
    x >>= f = ⟨x.opened, .error e⟩ := by
  simp only [bind, h]

theorem Opens.bind {x : Run α} {f : α → Run β} (hx : Opens p x)
    (hf : ∀ a, x.result = .ok a → Opens p (f a)) : Opens p (x >>= f) := by
  cases h : x.result with
  | error e =>
    rw [bind_error h]
    exact hx
  | ok a =>
    rw [bind_ok h]
    intro path hpath
    rcases List.mem_append.mp hpath with hpath | hpath
    · exact hx path hpath
    · exact hf a h path hpath

theorem Opens.of_bind {x : Run α} {f : α → Run β} (h : Opens p (x >>= f)) : Opens p x := by
  intro path hpath
  apply h
  cases hx : x.result with
  | error e => rwa [bind_error hx]
  | ok a =>
    rw [bind_ok hx]
    exact List.mem_append_left _ hpath

end Run

/-! ## Menus -/

/-- The host and the port are the same in all. -/
structure GopherItem where
  type : Byte
  desc : Str
  rlocation : Str
  deriving DecidableEq

/-- The lines of each text of `intro` are sent before the items, the last text first. -/
structure GopherMenu where
  intro : List Str
  items : List GopherItem
  deriving DecidableEq

inductive GopherContent where
  | menu (menu : GopherMenu)
  /-- `GopherFileContent`, with the name of the file that it sends. -/
  | file (fnome : Str)
  deriving DecidableEq

def GopherMenu.addIntro (menu : GopherMenu) (freeText : Str) : GopherMenu :=
  { menu with intro := freeText :: menu.intro }

def GopherMenu.addItem (menu : GopherMenu) (item : GopherItem) : GopherMenu :=
  { menu with items := menu.items ++ [item] }

/-- What one of the `GopherEngine` methods behind `handlers` does with a file. -/
inductive Handler where
  | infoFile
  | item (type : Byte)

def handlers : List (Str × Handler) :=
  [(ascii "info", .infoFile), (ascii "text", .item (ch '0')), (ascii "cso", .item (ch '2')),
    (ascii "binhex", .item (ch '4')), (ascii "dosbin", .item (ch '5')),
    (ascii "UUencode", .item (ch '6')), (ascii "telnet", .item (ch '8')), (ascii "bin", .item (ch '9')),
    (ascii "image", .item (ch 'I')), (ascii "gif", .item (ch 'g'))]

/-- `FilesUtility::getFileExt`: what comes after the last dot, if there is one. -/
def getFileExt (filename : Str) : Str :=
  if dot ∈ filename then (filename.reverse.takeWhile (· ≠ dot)).reverse else []

/-- The location of a file: the request is left out with its slash when it is empty. -/
def fileLocation (path fname : Str) : Str := (if path = [] then [] else path ++ [slash]) ++ fname

section Engine

variable (host : Vhost) (sys : System)

def openFile (path : Str) : Run Unit :=
  match sys.openFile (cstr path) with
  | .error e => ⟨[], .error e⟩
  | .ok u => ⟨[cstr path], .ok u⟩

/-- `ReadDirectory::find` takes one slash from the end of the name. -/
def dirName (directory : Str) : Str :=
  if directory.getLast? = some slash then directory.dropLast else directory

def opendir (directory : Str) : Run (List Dirent) :=
  match sys.opendir (dirName (cstr directory)) with
  | .error e => ⟨[], .error e⟩
  | .ok entries => ⟨[dirName (cstr directory)], .ok entries⟩

def infoFile (fname path : Str) (menu : GopherMenu) : Run GopherMenu := do
  let file_path := host.documentRoot ++ slash :: path ++ slash :: fname
  openFile sys file_path
  match ← Run.lift (sys.read (cstr file_path)) with
  | some buff => pure (menu.addIntro (cstr buff))
  | none => pure menu

def Handler.apply (handler : Handler) (fname path : Str) (menu : GopherMenu) : Run GopherMenu :=
  match handler with
  | .infoFile => Gopher.infoFile host sys fname path menu
  | .item type => pure (menu.addItem ⟨type, cstr fname, cstr (fileLocation path fname)⟩)

def dirManagement (fname path : Str) (menu : GopherMenu) : GopherMenu :=
  menu.addItem ⟨ch '1', cstr fname, cstr (path ++ slash :: fname)⟩

def fileManagement (fname path : Str) (menu : GopherMenu) : Run GopherMenu :=
  match handlers.lookup (cstr (getFileExt fname)) with
  | some handler => handler.apply host sys fname path menu
  | none =>
    match sys.getMIME (fileLocation host.documentRoot (fileLocation path fname)) with
    | some mimeType =>
      match handlers.lookup (cstr (mimeType.takeWhile (· ≠ slash))) with
      | some handler => handler.apply host sys fname path menu
      | none => pure menu
    | none => pure (menu.addItem ⟨ch '0', cstr fname, cstr (fileLocation path fname)⟩)

/-- The loop over the directory. Hidden entries are skipped. -/
def listing (request : Str) (menu : GopherMenu) : List Dirent → Run GopherMenu
  | [] => pure menu
  | entry :: entries => do
    let isDirectory ← Run.lift entry.isDirectory
    if entry.name.head? = some dot then listing request menu entries
    else if isDirectory then listing request (dirManagement entry.name request menu) entries
    else
      let menu ← fileManagement host sys entry.name request menu
      listing request menu entries

def requestPath (request : Str) : Str := host.documentRoot ++ slash :: request

/-- `GopherEngine::incoming`. A directory is refused after it has been opened, and what `findfirst`
finds no entry in is sent as a file. -/
def incoming (request : Str) : Run GopherContent := do
  let path := requestPath host request
  match ← opendir sys path with
  | [] => do
    openFile sys path
    pure (.file path)
  | entry :: entries => do
    let _ ← Run.lift entry.isDirectory
    if getPathRecursionLevel path > 0 then
      let menu ← listing host sys request ⟨[], []⟩ (entry :: entries)
      pure (.menu menu)
    else pure (.menu (GopherMenu.addIntro ⟨[], []⟩ (ascii "Invalid requested Path\n")))

/-- The loop of `Gopher::controlConnection`: it reads on until there is an end of line. -/
def readCommand (command : Str) : List Str → Option Str
  | [] => if ch '\n' ∈ command then some command else none
  | buffer :: reads =>
    if ch '\n' ∈ command then some command else readCommand (command ++ cstr buffer) reads

/-- `command.substr (0, loc - 1)`: the character before the end of line is dropped with it, and
nothing is when there is none. -/
def substrRequest (command : Str) : Str :=
  let loc := command.idxOf (ch '\n')
  if loc = 0 then command else command.take (loc - 1)

/-- The request, `none` while the line has not ended. -/
def request (b1 : Str) (reads : List Str) : Option Str :=
  (readCommand (cstr b1) reads).map substrRequest

def controlConnection (b1 : Str) (reads : List Str) : Option (Run GopherContent) :=
  (request b1 reads).map (incoming host sys)

end Engine

end MyServer.Gopher
