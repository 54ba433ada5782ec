import MyServer.Gopher.Engine

/-!
# The Gopher engine and the document root

Everything that a request opens is spelled from the document root, a slash and
the request, so that the request alone decides whether it lies inside.
-/

open MyServer.Walk MyServer.Files MyServer.Gopher.Run

namespace MyServer.Gopher

section Opens

variable (host : Vhost) (sys : System) {p : Str → Prop}

theorem openFile_opens {path : Str} (h : p (cstr path)) : (openFile sys path).Opens p := by
  unfold openFile
  intro name hname
  cases hopen : sys.openFile (cstr path) with
  | error e => simp [hopen] at hname
  | ok u =>
    simp only [hopen, List.mem_singleton] at hname
    exact hname ▸ h

theorem opendir_opens {directory : Str} (h : p (dirName (cstr directory))) :
    (opendir sys directory).Opens p := by
  unfold opendir
  intro name hname
  cases hopen : sys.opendir (dirName (cstr directory)) with
  | error e => simp [hopen] at hname
  | ok entries =>
    simp only [hopen, List.mem_singleton] at hname
    exact hname ▸ h

/-- Of the files below a directory, only those whose text goes into the menu are opened. -/
def infoPath (request fname : Str) : Str := host.documentRoot ++ slash :: request ++ slash :: fname

theorem infoFile_opens {fname request : Str} (menu : GopherMenu)
    (h : p (cstr (infoPath host request fname))) :
    (infoFile host sys fname request menu).Opens p := by
  unfold infoFile
  apply Opens.bind
  · exact openFile_opens sys h
  · intro _ _
    apply Opens.bind
    · simp
    · intro buff _
      cases buff <;> simp

theorem handler_opens (handler : Handler) {fname request : Str} (menu : GopherMenu)
    (h : p (cstr (infoPath host request fname))) :
    (handler.apply host sys fname request menu).Opens p := by
  cases handler with
  | infoFile => exact infoFile_opens host sys menu h
  | item type => simp [Handler.apply]

theorem fileManagement_opens {fname request : Str} (menu : GopherMenu)
    (h : p (cstr (infoPath host request fname))) :
    (fileManagement host sys fname request menu).Opens p := by
  unfold fileManagement
  split
  · exact handler_opens host sys _ menu h
  · split
    · split
      · exact handler_opens host sys _ menu h
      · simp
    · simp

theorem listing_opens {request : Str} (menu : GopherMenu) {entries : List Dirent}
    (h : ∀ entry ∈ entries, entry.name.head? ≠ some dot →
      p (cstr (infoPath host request entry.name))) :
    (listing host sys request menu entries).Opens p := by
  induction entries generalizing menu with
  | nil => simp [listing]
  | cons entry entries ih =>
    have hrest : ∀ menu, (listing host sys request menu entries).Opens p := fun menu =>
      ih menu fun e he => h e (List.mem_cons_of_mem _ he)
    rw [listing]
    apply Opens.bind
    · simp
    intro isDirectory _
    split_ifs with hhidden
    · exact hrest menu
    · exact hrest _
    · apply Opens.bind
      · exact fileManagement_opens host sys menu (h entry List.mem_cons_self hhidden)
      · exact fun menu _ => hrest menu

theorem incoming_opens {request : Str} (hdir : p (dirName (cstr (requestPath host request))))
    (hfile : p (cstr (requestPath host request)))
    (hinfo : ∀ entry : Dirent, entry.name.head? ≠ some dot →
      p (cstr (infoPath host request entry.name))) :
    (incoming host sys request).Opens p := by
  unfold incoming
  apply Opens.bind
  · exact opendir_opens sys hdir
  intro entries _
  cases entries with
  | nil =>
    apply Opens.bind
    · exact openFile_opens sys hfile
    · simp
  | cons entry entries =>
    apply Opens.bind
    · simp
    intro _ _
    split_ifs
    · apply Opens.bind
      · exact listing_opens host sys _ fun entry _ => hinfo entry
      · simp
    · simp

end Opens

/-! ## The root, and what the request adds -/

theorem steps_dirName (directory : Str) : steps (dirName directory) = steps directory := by
  unfold dirName
  split_ifs with h
  · exact steps_dropLast h
  · rfl

variable (host : Vhost)

theorem inside_root_iff (part : Str) :
    Inside host.documentRoot (cstr (host.documentRoot ++ slash :: part)) ↔
      NeverOutnumbered (cstr part) := by
  rw [cstr_append host.documentRoot_cstr, cstr_slash_cons, inside_append_iff]

theorem inside_dirName_iff (request : Str) :
    Inside host.documentRoot (dirName (cstr (requestPath host request))) ↔
      NeverOutnumbered (cstr request) := by
  rw [Inside, steps_dirName]
  exact inside_root_iff host request

theorem toMove_visible {name : Str} (h : name.head? ≠ some dot) : 0 ≤ (toMove name).rise := by
  unfold toMove
  split_ifs with hstay hup
  · simp
  · rw [hup] at h
    exact absurd rfl h
  · simp

/-- An entry of a directory inside the root lies inside the root too, unless it is hidden. -/
theorem neverOutnumbered_entry {request fname : Str} (hslash : ∀ c ∈ fname, isSlash c = false)
    (hvisible : fname.head? ≠ some dot) (h : NeverOutnumbered (cstr request)) :
    NeverOutnumbered (cstr (request ++ slash :: fname)) := by
  by_cases hnul : (0 : Byte) ∈ request
  · rwa [cstr_append_of_mem hnul]
  have hrequest : cstr request = request := by simpa [cstr] using cstr_append hnul []
  have hcut : ∀ c ∈ cstr fname, isSlash c = false := fun c hc =>
    hslash c ((List.takeWhile_sublist _).subset hc)
  have hhead : (cstr fname).head? ≠ some dot := by
    intro hdot
    apply hvisible
    have hpre : cstr fname <+: fname := List.takeWhile_prefix _
    obtain ⟨rest, hrest⟩ := hpre
    rw [← hrest, List.head?_append, hdot]
    rfl
  rw [cstr_append hnul, cstr_slash_cons]
  rw [hrequest, NeverOutnumbered, ← confined_iff_count] at h
  rw [NeverOutnumbered, ← confined_iff_count, moves_append_sep isSlash request _ slash (by decide),
    moves_name hcut]
  apply (confined_append_of_nonneg _).mpr h
  simpa using toMove_visible hhead

/-- **Confinement of a request.** What is opened lies inside the document root exactly when the request
never climbs above it, and always when the directory named by it cannot be opened. -/
theorem incoming_inside_iff (sys : System) (request : Str) :
    (incoming host sys request).Opens (Inside host.documentRoot) ↔
      (∀ entries, sys.opendir (dirName (cstr (requestPath host request))) ≠ .ok entries) ∨
        NeverOutnumbered (cstr request) := by
  constructor
  · intro h
    cases hopen : sys.opendir (dirName (cstr (requestPath host request))) with
    | error e => exact Or.inl fun entries => by simp
    | ok entries =>
      right
      rw [← inside_dirName_iff host request]
      have hopened : (opendir sys (requestPath host request)).Opens (Inside host.documentRoot) := h.of_bind
      apply hopened
      simp [opendir, hopen]
  · rintro (hfail | hsafe)
    · intro path hpath
      cases hopen : sys.opendir (dirName (cstr (requestPath host request))) with
      | error e =>
        have hrun : opendir sys (requestPath host request) = ⟨[], .error e⟩ := by simp [opendir, hopen]
        rw [incoming, bind_error (by rw [hrun]), hrun] at hpath
        simp at hpath
      | ok entries => exact absurd hopen (hfail entries)
    · refine incoming_opens host sys ?_ ?_ ?_
      · exact (inside_dirName_iff host request).mpr hsafe
      · exact (inside_root_iff host request).mpr hsafe
      · intro entry hvisible
        have hentry := neverOutnumbered_entry entry.no_slash hvisible hsafe
        have hpath : infoPath host request entry.name =
            host.documentRoot ++ slash :: (request ++ slash :: entry.name) := by simp [infoPath]
        rw [hpath]
        exact (inside_root_iff host _).mpr hentry

/-- **Gopher confinement**, for every line that a client can send. -/
theorem controlConnection_inside_iff (sys : System) (b1 : Str) (reads : List Str) :
    (∀ run, controlConnection host sys b1 reads = some run → run.Opens (Inside host.documentRoot)) ↔
      ∀ command, request b1 reads = some command →
        (∀ entries, sys.opendir (dirName (cstr (requestPath host command))) ≠ .ok entries) ∨
          NeverOutnumbered (cstr command) := by
  unfold controlConnection
  cases h : request b1 reads with
  | none => simp
  | some command =>
    simp only [Option.map_some, Option.some.injEq, forall_eq']
    exact incoming_inside_iff host sys command

def srvGopher : Vhost := ⟨ascii "/srv/gopher", by decide⟩

theorem one_letter : ∀ c ∈ ascii "a", isSlash c = false := by
  have h : ascii "a" = [ch 'a'] := rfl
  rw [h, List.forall_mem_singleton]
  decide

/-- Every name is a directory with one file in it. -/
def oneFile : System where
  opendir _ := .ok [⟨ascii "a", .ok false, one_letter⟩]
  openFile _ := .ok ()
  read _ := .ok none
  getMIME _ := none

/-- The net level of `/srv/gopher/../../etc` is 1, and the directory is listed. -/
theorem not_controlConnection_inside :
    ¬ ∀ (host : Vhost) (sys : System) (b1 : Str) (reads : List Str) (run : Run GopherContent),
      controlConnection host sys b1 reads = some run → run.Opens (Inside host.documentRoot) := by
  intro h
  have hopens := h srvGopher oneFile (ascii "../../etc\r\n") [] _ rfl
  obtain ⟨part, heq, hc⟩ := hopens (ascii "/srv/gopher/../../etc") (by decide)
  have hsteps : steps (ascii "/srv/gopher/../../etc") =
      steps srvGopher.documentRoot ++ [.up, .up, .down (ascii "etc")] := by decide
  rw [hsteps] at heq
  rw [← List.append_cancel_left heq] at hc
  exact absurd (hc 1) (by decide)

example : (incoming srvGopher oneFile (ascii "../../etc")).result =
    .ok (.menu ⟨[], [⟨ch '0', ascii "a", ascii "../../etc/a"⟩]⟩) := by rfl

end MyServer.Gopher
