import MyServer.MyserverGet.Dependences

/-!
# Installing a plugin (myserver-get, general.py)

`install` fetches the archives of a plugin and of what it requires, one after the other, and unpacks them in a
second loop that removes each archive. The plugins that are there already are those that were there when the
program started.
-/

open Relation

namespace MyServer.MyserverGet

/-- What surrounds the program. -/
structure Site where
  serverVersion : Str
  arch : Str
  pluginDir : Str
  /-- `DatabaseManager.plugins`. -/
  installed : List Str
  /-- `urlretrieve` goes through. -/
  fetches : Str → Bool
  /-- `tarfile.open` and `extractall` go through. -/
  opens : Str → Bool

/-- The archives in the directory of the plugins, and the plugins that were unpacked. -/
structure Disk where
  archives : List Str
  unpacked : List Str
deriving DecidableEq

inductive Outcome where
  | refused (lines : List Str)
  | finished
deriving DecidableEq

/-! ## The steps -/

/-- `getRepository`. Without a class for the protocol its result cannot be called. -/
def supported (repository : Str) : Bool :=
  let url := repository.map toLower
  (ascii "http").isPrefixOf url || (ascii "ftp").isPrefixOf url

/-- `%s-%s-%s.tar.gz`. -/
def archiveName (site : Site) (plugin : PluginInfo) : Option Str := do
  let name ← plugin.name
  let version ← plugin.version
  return name ++ ascii "-" ++ version ++ ascii "-" ++ site.arch ++ ascii ".tar.gz"

def archivePath (site : Site) (plugin : PluginInfo) : Option Str :=
  (archiveName site plugin).map fun file => site.pluginDir ++ ascii "/" ++ file

def archiveUrl (site : Site) (entry : Entry) : Option Str :=
  (archiveName site entry.1).map fun file => entry.2.repository ++ ascii "/pub/" ++ file

/-- The prompt comes again until the answer is one of three. The lines behind the answer are left. -/
def wanted : List Str → Option (Bool × List Str)
  | [] => none
  | line :: lines =>
    let resp := line.map toLower
    if resp = ascii "y\n" ∨ resp = ascii "\n" then some (true, lines)
    else if resp = ascii "n\n" then some (false, lines)
    else wanted lines

/-- The first loop fetches the archives. The plugins whose archives do not come are noted. -/
def download (site : Site) : List Entry → Disk → Option (Disk × List PluginInfo)
  | [], disk => some (disk, [])
  | entry :: rest, disk => do
    let name ← entry.1.name
    if site.installed.contains name then download site rest disk
    else if supported entry.2.repository = false then none
    else
      let url ← archiveUrl site entry
      let filename ← archivePath site entry.1
      if site.fetches url then download site rest { disk with archives := filename :: disk.archives }
      else (download site rest disk).map fun done => (done.1, entry.1 :: done.2)

/-- The second loop unpacks them. It is left when an archive is not there or cannot be read. -/
def extract (site : Site) : List Entry → Disk → Option (Disk × Bool)
  | [], disk => some (disk, true)
  | entry :: rest, disk => do
    let name ← entry.1.name
    if site.installed.contains name then extract site rest disk
    else
      let filename ← archivePath site entry.1
      if disk.archives.contains filename ∧ site.opens filename then
        extract site rest { archives := disk.archives.filter (· ≠ filename), unpacked := disk.unpacked ++ [name] }
      else some (disk, false)

/-- One of the arguments. `none` is an exception, or a console that has no answer. -/
def installOne (site : Site) (lists : List ListManager) (depth : Nat) (arg : Str) (answers : List Str) (disk : Disk) :
    Option (Disk × Outcome × List Str) := do
  match ← find lists arg with
  | none => return (disk, .refused [ascii "No plugin with this name is present in the plugin database."], answers)
  | some root =>
    if ← inRange site.serverVersion root.1.minVersion root.1.maxVersion then
      let (result, errors) ← recursiveDependencesChecker lists depth root.1
      if errors ≠ [] then
        let lines ← errors.mapM fun (plugin, msg) =>
          plugin.name.map fun name => ascii "Error while install " ++ name ++ ascii ": " ++ msg
        return (disk, .refused lines, answers)
      else
        let (yes, answers) ← wanted answers
        if yes then
          let toInstall := root :: result
          let (disk, downloadErrors) ← download site toInstall disk
          if downloadErrors ≠ [] then
            let files ← downloadErrors.mapM (archiveName site)
            return (disk, .refused [ascii "Errors retriving the follow plugins packages: " ++
              [ch ' '].intercalate files], answers)
          else
            let (disk, done) ← extract site toInstall disk
            return (disk, if done then .finished else .refused [ascii "Error while exctracting plugin package!"], answers)
        else return (disk, .refused [ascii "Install aborted."], answers)
    else return (disk, .refused [ascii "Plugin incompatible with GNU MyServer installed version."], answers)

/-- `install`. The first argument that does not go through ends it. -/
def install (site : Site) (lists : List ListManager) (depth : Nat) : List Str → List Str → Disk → Option (Disk × Outcome)
  | [], _, disk => some (disk, .finished)
  | arg :: args, answers, disk => do
    let (disk, outcome, answers) ← installOne site lists depth arg answers disk
    if outcome = .finished then install site lists depth args answers disk else return (disk, outcome)

/-! ## The loops -/

/-- The plugin is not there yet, and its archive can be fetched and read. -/
structure Obtainable (site : Site) (entry : Entry) : Prop where
  named : ∃ name, entry.1.name = some name ∧ name ∉ site.installed
  supported : supported entry.2.repository = true
  fetched : ∃ url, archiveUrl site entry = some url ∧ site.fetches url = true
  opened : ∃ file, archivePath site entry.1 = some file ∧ site.opens file = true

theorem download_obtainable {site : Site} {l : List Entry} (hl : ∀ e ∈ l, Obtainable site e) (disk : Disk) :
    ∃ after : Disk, download site l disk = some (after, []) ∧ disk.archives ⊆ after.archives ∧
      ∀ e ∈ l, ∀ file ∈ archivePath site e.1, file ∈ after.archives := by
  induction l generalizing disk with
  | nil => exact ⟨disk, rfl, List.Subset.refl _, fun e he => absurd he List.not_mem_nil⟩
  | cons e l ih =>
    obtain ⟨he, hl⟩ := List.forall_mem_cons.mp hl
    obtain ⟨name, hname, hnew⟩ := he.named
    obtain ⟨url, hurl, hfetched⟩ := he.fetched
    obtain ⟨file, hfile, -⟩ := he.opened
    obtain ⟨after, hafter, hsubset, hall⟩ := ih hl { disk with archives := file :: disk.archives }
    refine ⟨after, ?_, fun f hf => hsubset (List.mem_cons_of_mem _ hf), ?_⟩
    · unfold download
      simp only [hname, hurl, hfile, Option.bind_eq_bind, Option.bind_some, List.contains_iff_mem, if_neg hnew,
        he.supported, hfetched, if_true]
      exact hafter
    · refine List.forall_mem_cons.mpr ⟨fun f hf => ?_, hall⟩
      rw [hfile, Option.mem_some_iff] at hf
      exact hsubset (hf ▸ List.mem_cons_self)

/-- **A missing archive ends the second loop.** -/
theorem not_extract_of_missing {site : Site} {l : List Entry} {disk : Disk} {e : Entry} (he : e ∈ l)
    (hnew : ∃ name, e.1.name = some name ∧ name ∉ site.installed)
    (hmissing : ∀ file ∈ archivePath site e.1, file ∉ disk.archives) (after : Disk) :
    extract site l disk ≠ some (after, true) := by
  induction l generalizing disk with
  | nil => exact absurd he List.not_mem_nil
  | cons a l ih =>
    intro h
    unfold extract at h
    obtain ⟨name, hname, h⟩ := Option.bind_eq_some_iff.mp h
    rcases List.mem_cons.mp he with rfl | he
    · obtain ⟨name', hname', hnot⟩ := hnew
      obtain rfl : name = name' := Option.some_inj.mp (hname.symm.trans hname')
      rw [if_neg (mt List.contains_iff_mem.mp hnot)] at h
      obtain ⟨file, hfile, h⟩ := Option.bind_eq_some_iff.mp h
      rw [if_neg fun hin => hmissing file hfile (List.contains_iff_mem.mp hin.1)] at h
      cases h
    · split_ifs at h with hin
      · exact ih he hmissing h
      · obtain ⟨file, hfile, h⟩ := Option.bind_eq_some_iff.mp h
        split_ifs at h
        · refine ih he (fun f hf hmem => hmissing f hf ?_) h
          exact List.mem_of_mem_filter hmem
        · cases h

/-- **The second loop gets through** exactly when no two of its plugins have one archive. -/
theorem extract_iff {site : Site} {l : List Entry} (hl : ∀ e ∈ l, Obtainable site e) {disk : Disk}
    (hthere : ∀ e ∈ l, ∀ file ∈ archivePath site e.1, file ∈ disk.archives) :
    (∃ after, extract site l disk = some (after, true)) ↔ (l.map fun e => archivePath site e.1).Nodup := by
  induction l generalizing disk with
  | nil => simp [extract]
  | cons e l ih =>
    obtain ⟨he, hl⟩ := List.forall_mem_cons.mp hl
    obtain ⟨hfile, hthere⟩ := List.forall_mem_cons.mp hthere
    obtain ⟨name, hname, hnew⟩ := he.named
    obtain ⟨file, hpath, hopens⟩ := he.opened
    have hstep : extract site (e :: l) disk =
        extract site l { archives := disk.archives.filter (· ≠ file), unpacked := disk.unpacked ++ [name] } := by
      rw [extract]
      simp only [hname, hpath, Option.bind_eq_bind, Option.bind_some, List.contains_iff_mem, if_neg hnew]
      exact if_pos ⟨hfile file hpath, hopens⟩
    rw [hstep, List.map_cons, List.nodup_cons, hpath]
    by_cases hmem : some file ∈ l.map fun e => archivePath site e.1
    · -- the archive went when the first of the two was unpacked
      obtain ⟨twin, htwin, hsame⟩ := List.mem_map.mp hmem
      refine iff_of_false ?_ fun h => h.1 hmem
      rintro ⟨after, hafter⟩
      refine not_extract_of_missing htwin (hl twin htwin).named (fun f hf hkept => ?_) after hafter
      rw [hsame, Option.mem_some_iff] at hf
      subst hf
      simp at hkept
    · rw [and_iff_right hmem]
      refine ih hl fun a ha f hf => List.mem_filter.mpr ⟨hthere a ha f hf, ?_⟩
      rw [decide_eq_true_eq]
      rintro rfl
      exact hmem (List.mem_map.mpr ⟨a, ha, hf⟩)

/-! ## The installation -/

/-- A site where nothing is installed and everything can be had. -/
def openSite : Site where
  serverVersion := ascii "0.9"
  arch := ascii "linux64"
  pluginDir := ascii "/p"
  installed := []
  fetches _ := true
  opens _ := true

end MyServer.MyserverGet
