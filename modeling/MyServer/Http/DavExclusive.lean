import MyServer.Http.DavLocks
import MyServer.Http.DavConfined

/-!
# Are WebDAV locks exclusive?

A command respects a held lock as long as it asks for the file of a held lock and
that file is still there. Both depend on how the requests are spelled.
-/

open MyServer.Walk MyServer.Files MyServer.Security

namespace MyServer.Http

section Commands

variable (env : SecurityEnv) (sys : DavSystem) (r : DavRequest)

/-- What `davdelete` does once nothing forbids it. -/
def deleteSource : DavAnswer :=
  match isDirectory sys.fs r.source with
  | .error _ => .thrown
  | .ok false => if sys.removes r.source then ⟨some 202, [r.source]⟩ else .thrown
  | .ok true => deleteDir sys r.source (sys.tree r.source)

/-- The command succeeds when no lock stands against it. -/
def DavCommand.Admits : DavCommand → Prop
  | .copy => r.enabled ∧ ∃ part, r.part = some part ∧
      writeRefused env sys r (r.target part) = none ∧ (copyTo sys r (r.target part)).Successful
  | .davdelete => r.enabled ∧ 0 < getPathRecursionLevel r.uri ∧ writeRefused env sys r r.source = none ∧
      (deleteSource sys r).Successful
  | .move => r.enabled ∧ ∃ part, r.part = some part ∧
      writeRefused env sys r (r.target part) = none ∧ (moveTo sys r (r.target part)).Successful
  | .mkcol => r.enabled ∧ 0 < getPathRecursionLevel r.uri ∧
      nodeExists sys.fs (ancestor (r.target r.uri)) ∧ ¬ nodeExists sys.fs (r.target r.uri) ∧
      sys.creates (r.target r.uri)

/-! ## Which commands succeed -/

theorem not_successful_refused {status : Nat} (h : status / 100 ≠ 2) :
    ¬ (DavAnswer.refused status).Successful := by
  rintro ⟨s, hs, hok⟩
  obtain rfl := Option.some.inj hs
  exact h hok

theorem not_successful_thrown : ¬ DavAnswer.thrown.Successful := by
  rintro ⟨s, hs, -⟩
  cases hs

theorem successful_refuse_iff {c : Prop} [Decidable c] {status : Nat} (h : status / 100 ≠ 2)
    (answer : DavAnswer) :
    (if c then .refused status else answer).Successful ↔ ¬ c ∧ answer.Successful := by
  split_ifs with hc
  · simp [hc, not_successful_refused h]
  · simp [hc]

variable {env sys r}

theorem requestDirectory_error {fs : FileSystem} {path : Str} {status : Nat}
    (h : requestDirectory fs path = .error status) : status = 500 := by
  unfold requestDirectory at h
  split at h
  · cases h
  · cases h
  · cases h
  · exact (Except.error.inj h).symm

theorem requestTarget_error {c : HttpConnection} {resource : Str} {status : Nat}
    (h : requestTarget sys.fs c resource false = .error status) : status = 401 ∨ status = 500 := by
  unfold requestTarget mapResource at h
  rcases requestPath_eq c.td resource with ⟨-, hpath⟩ | ⟨-, hpath⟩
  · simp only [Bool.false_eq_true, if_false, hpath, bind, Except.bind] at h
    exact Or.inl (Except.error.inj h).symm
  · simp only [Bool.false_eq_true, if_false, hpath, bind, Except.bind] at h
    right
    cases hdir : requestDirectory sys.fs
        (rootOf c.td (decoded resource) ++ appendedPart (decoded resource)) with
    | error s =>
      rw [hdir] at h
      exact Except.error.inj h ▸ requestDirectory_error hdir
    | ok directory =>
      rw [hdir] at h
      cases h

theorem readPermissions_error {c : HttpConnection} {st : SecurityToken} {status : Nat}
    (h : readPermissions c st = .error status) : status = 500 := by
  unfold readPermissions at h
  split_ifs at h
  split at h
  · exact (Except.error.inj h).symm
  · cases h
  · cases h

theorem writeRefused_status {path : Str} {status : Nat}
    (h : writeRefused env sys r path = some status) : status = 401 ∨ status = 500 := by
  unfold writeRefused at h
  split at h
  · rename_i s hs
    obtain rfl := Option.some.inj h
    unfold getFilePermissions at hs
    cases htarget : requestTarget sys.fs r.connection path false with
    | error s =>
      simp only [htarget, bind, Except.bind] at hs
      exact Except.error.inj hs ▸ requestTarget_error htarget
    | ok target =>
      simp only [htarget, bind, Except.bind] at hs
      split_ifs at hs
      · exact Or.inr (Except.error.inj hs).symm
      · exact Or.inr (readPermissions_error hs)
  · split_ifs at h
    exact Or.inl (Option.some.inj h).symm

theorem not_successful_writeRefused {path : Str} {status : Nat}
    (h : writeRefused env sys r path = some status) : ¬ (DavAnswer.refused status).Successful := by
  apply not_successful_refused
  rcases writeRefused_status h with rfl | rfl <;> decide

/-- A command with a destination: it asks for its locks, and then for the permission to write there. -/
theorem successful_destination_iff (locked : Str → Prop) [DecidablePred locked]
    (answer : Str → DavAnswer) :
    (if !r.enabled then DavAnswer.refused 503
      else
        match r.part with
        | none => DavAnswer.thrown
        | some part =>
          if locked (r.target part) then DavAnswer.refused 423
          else
            match writeRefused env sys r (r.target part) with
            | some status => DavAnswer.refused status
            | none => answer (r.target part)).Successful ↔
      r.enabled ∧ ∃ part, r.part = some part ∧ ¬ locked (r.target part) ∧
        writeRefused env sys r (r.target part) = none ∧ (answer (r.target part)).Successful := by
  rw [successful_refuse_iff (by decide)]
  cases r.part with
  | none => simp [not_successful_thrown]
  | some part =>
    dsimp only
    rw [successful_refuse_iff (by decide)]
    cases hrefused : writeRefused env sys r (r.target part) with
    | some status => simp [not_successful_writeRefused hrefused, hrefused]
    | none => simp [hrefused]

theorem copy_successful_iff : (copy env sys r).Successful ↔
    DavCommand.Admits env sys r .copy ∧ ∀ path ∈ DavCommand.asked r .copy, isLocked sys r path = false := by
  refine (successful_destination_iff (fun target => isLocked sys r target) (copyTo sys r)).trans ?_
  unfold DavCommand.Admits DavCommand.asked
  cases r.part with
  | none => simp
  | some part =>
    simp
    tauto

theorem davdelete_successful_iff : (davdelete env sys r).Successful ↔
    DavCommand.Admits env sys r .davdelete ∧
      ∀ path ∈ DavCommand.asked r .davdelete, isLocked sys r path = false := by
  unfold davdelete DavCommand.Admits DavCommand.asked
  rw [successful_refuse_iff (by decide), successful_refuse_iff (by decide),
    successful_refuse_iff (by decide)]
  cases hrefused : writeRefused env sys r r.source with
  | some status => simp [not_successful_writeRefused hrefused]
  | none =>
    change _ ∧ _ ∧ _ ∧ (deleteSource sys r).Successful ↔ _
    simp
    tauto

theorem move_successful_iff : (move env sys r).Successful ↔
    DavCommand.Admits env sys r .move ∧ ∀ path ∈ DavCommand.asked r .move, isLocked sys r path = false := by
  refine (successful_destination_iff (fun target => isLocked sys r (ancestor target) ∨
    isLocked sys r r.source) (moveTo sys r)).trans ?_
  unfold DavCommand.Admits DavCommand.asked
  cases r.part with
  | none => simp
  | some part =>
    simp
    tauto

theorem mkcol_successful_iff : (mkcol sys r).Successful ↔
    DavCommand.Admits env sys r .mkcol ∧ ∀ path ∈ DavCommand.asked r .mkcol, isLocked sys r path = false := by
  unfold mkcol DavCommand.Admits DavCommand.asked
  rw [successful_refuse_iff (by decide), successful_refuse_iff (by decide),
    successful_refuse_iff (by decide), successful_refuse_iff (by decide),
    successful_refuse_iff (by decide)]
  have hcreates : (if sys.creates (r.target r.uri) then (⟨some 201, [r.target r.uri]⟩ : DavAnswer)
      else ⟨some 500, []⟩).Successful ↔ sys.creates (r.target r.uri) = true := by
    split_ifs with hc
    · simp [hc, DavAnswer.Successful]
    · simp [hc, DavAnswer.Successful]
  rw [hcreates]
  simp
  tauto

/-- A command succeeds exactly if it would without the locks, and finds none of the locks that it asks
for. -/
theorem run_successful_iff (cmd : DavCommand) : (cmd.run env sys r).Successful ↔
    cmd.Admits env sys r ∧ ∀ path ∈ cmd.asked r, isLocked sys r path = false := by
  cases cmd with
  | copy => exact copy_successful_iff
  | davdelete => exact davdelete_successful_iff
  | move => exact move_successful_iff
  | mkcol => exact mkcol_successful_iff

end Commands

/-! ## Held locks -/

/-- **One request.** It respects the held locks exactly when each of them is kept by some lock that the
command asks for, or by what else the command requires. -/
theorem respects_iff (held : List HeldLock) (e : DavEvent) (cmd : DavCommand)
    (hcmd : e.method = .command cmd) : Respects held e ↔
      ∀ l ∈ held, (∃ path ∈ cmd.targets e.r, place path = place l.path) → ¬ e.r.Submits l.token →
        cmd.Admits e.env e.sys.dav e.r → ∃ path ∈ cmd.asked e.r, isLocked e.sys.dav e.r path := by
  have hanswer : e.answer.Successful ↔ cmd.Admits e.env e.sys.dav e.r ∧
      ∀ path ∈ cmd.asked e.r, isLocked e.sys.dav e.r path = false := by
    rw [DavEvent.answer, hcmd]
    exact run_successful_iff cmd
  constructor
  · intro h l hl htarget hsubmit hadmits
    have hfails := h cmd hcmd l hl htarget hsubmit
    rw [hanswer] at hfails
    by_contra hnone
    apply hfails ⟨hadmits, ?_⟩
    intro path hpath
    by_contra hlocked
    exact hnone ⟨path, hpath, by simpa using hlocked⟩
  · intro h cmd' hcmd' l hl htarget hsubmit hok
    obtain rfl : cmd = cmd' := LockMethod.command.inj (hcmd.symm.trans hcmd')
    obtain ⟨hadmits, hfree⟩ := hanswer.mp hok
    obtain ⟨path, hpath, hlocked⟩ := h l hl htarget hsubmit hadmits
    rw [hfree path hpath] at hlocked
    cases hlocked

/-- What a request has to keep to. An UNLOCK removes the file of a held lock only with its token and for
its resource; a DELETE or MOVE has none of these files below its source; and a command
on the resource of a held lock asks for a path with the file of a held lock. -/
def Careful (held : List HeldLock) (e : DavEvent) : Prop :=
  match e.method with
  | .lock => True
  | .unlock => ∀ l ∈ held, LeadsThrough (cstr l.lockLoc) (lockLoc e.sys.dav e.r e.r.source) →
      Unlocks e.r l
  | .command cmd =>
    (∀ path ∈ cmd.takes e.r, ∀ l ∈ held, ¬ LeadsThrough (cstr l.lockLoc) path) ∧
      ∀ l ∈ held, (∃ path ∈ cmd.targets e.r, place path = place l.path) → ¬ e.r.Submits l.token →
        cmd.Admits e.env e.sys.dav e.r →
          ∃ path ∈ cmd.asked e.r, ∃ l' ∈ held, lockLoc e.sys.dav e.r path = l'.lockLoc

/-- The lock table has the file of each held lock. -/
def Kept (fs : FileSystem) (held : List HeldLock) : Prop := ∀ l ∈ held, nodeExists fs l.lockLoc

section Steps

variable {hash : Str → Str} {fs : FileSystem} {held : List HeldLock} {e : DavEvent}

theorem lock_touched {sys : LockSystem} {r : DavRequest} (h : (lock sys r).status = some 201) :
    lockLoc sys.dav r r.source ∈ (lock sys r).touched := by
  generalize hanswer : lock sys r = answer at h ⊢
  unfold lock at hanswer
  dsimp only at hanswer
  split_ifs at hanswer <;> subst hanswer <;> first | (cases h; done) | simp

theorem removed_unlock (hmethod : e.method = .unlock) :
    ∀ p ∈ e.removed, p = lockLoc e.sys.dav e.r e.r.source := by
  unfold DavEvent.removed DavEvent.answer
  rw [hmethod]
  unfold unlock
  dsimp only
  split_ifs
  · simp [DavAnswer.refused]
  · simp
  · simp [DavAnswer.thrown]

/-- What a command removes lies where it takes something away, or below. -/
theorem removed_command {cmd : DavCommand} (hmethod : e.method = .command cmd) :
    ∀ p ∈ e.removed, ∃ path ∈ cmd.takes e.r, ∃ below : List (Move Str),
      steps p = steps path ++ below ∧ ∀ m ∈ below, 0 ≤ m.rise := by
  unfold DavEvent.removed DavEvent.answer
  rw [hmethod]
  cases cmd with
  | copy => simp
  | mkcol => simp
  | davdelete =>
    intro p hp
    exact ⟨e.r.source, List.mem_singleton.mpr rfl, davdelete_touched p hp⟩
  | move =>
    intro p hp
    change p ∈ (move e.env e.sys.dav e.r).touched.take 1 at hp
    obtain ⟨part, -, htouched⟩ :=
      move_touched (List.ne_nil_of_mem (List.mem_of_mem_take hp))
    rw [htouched] at hp
    obtain rfl := List.mem_singleton.mp hp
    exact ⟨e.r.source, List.mem_singleton.mpr rfl, [], by rw [List.append_nil],
      fun m hm => absurd hm List.not_mem_nil⟩

theorem nextHeld_lock (hmethod : e.method = .lock) (hstatus : e.answer.status = some 201) :
    nextHeld held e =
      ⟨e.r.source, e.sys.dav.sha1 e.r.source, lockLoc e.sys.dav e.r e.r.source⟩ :: held := by
  unfold nextHeld
  rw [hmethod]
  exact if_pos hstatus

theorem mem_nextHeld {l : HeldLock} (h : l ∈ nextHeld held e) : l ∈ held ∨
    (e.method = .lock ∧ e.answer.status = some 201 ∧
      l.lockLoc = lockLoc e.sys.dav e.r e.r.source) := by
  unfold nextHeld at h
  split at h
  · rename_i hmethod
    split_ifs at h with hstatus
    · rcases List.mem_cons.mp h with rfl | h
      · exact Or.inr ⟨hmethod, hstatus, rfl⟩
      · exact Or.inl h
    · exact Or.inl h
  · exact Or.inl (List.mem_of_mem_filter h)
  · exact Or.inl h

/-- No file of a lock that is still held afterwards is removed. -/
theorem Careful.not_removed (hcareful : Careful held e) {l : HeldLock} (hl : l ∈ held)
    (hnext : l ∈ nextHeld held e) : ∀ p ∈ e.removed, ¬ LeadsThrough (cstr l.lockLoc) p := by
  intro p hp hthrough
  unfold Careful at hcareful
  cases hmethod : e.method with
  | lock =>
    unfold DavEvent.removed at hp
    rw [hmethod] at hp
    exact absurd hp List.not_mem_nil
  | unlock =>
    rw [hmethod] at hcareful
    rw [removed_unlock hmethod p hp] at hthrough
    unfold nextHeld at hnext
    rw [hmethod] at hnext
    have hstays := List.of_mem_filter hnext
    simp only [decide_not, Bool.not_eq_true', decide_eq_false_iff_not] at hstays
    exact hstays (hcareful l hl hthrough)
  | command cmd =>
    rw [hmethod] at hcareful
    obtain ⟨path, hpath, below, hsteps, hbelow⟩ := removed_command hmethod p hp
    exact hcareful.1 path hpath l hl (hthrough.below hsteps hbelow)

/-- **One step.** -/
theorem Kept.next (hkept : Kept fs held) (hpossible : e.Possible hash fs) (hcareful : Careful held e) :
    Kept e.after (nextHeld held e) := by
  intro l hnext
  rcases mem_nextHeld hnext with hl | ⟨hmethod, hstatus, hloc⟩
  · exact hpossible.kept l.lockLoc (hkept l hl) (hcareful.not_removed hl hnext)
  · apply hpossible.there
    have hanswer : e.answer = lock e.sys e.r := by rw [DavEvent.answer, hmethod]
    rw [hanswer] at hstatus
    rw [DavEvent.created, hmethod, hanswer, hloc]
    exact lock_touched hstatus

theorem Kept.respects (hkept : Kept fs held) (hpossible : e.Possible hash fs)
    (hcareful : Careful held e) : Respects held e := by
  cases hmethod : e.method with
  | lock => exact fun cmd hcmd => by rw [hmethod] at hcmd; cases hcmd
  | unlock => exact fun cmd hcmd => by rw [hmethod] at hcmd; cases hcmd
  | command cmd =>
    rw [respects_iff held e cmd hmethod]
    unfold Careful at hcareful
    rw [hmethod] at hcareful
    intro l hl htarget hsubmit hadmits
    obtain ⟨path, hpath, l', hl', hloc⟩ := hcareful.2 l hl htarget hsubmit hadmits
    refine ⟨path, hpath, ?_⟩
    rw [isLocked_eq, hpossible.before, hloc]
    exact hkept l' hl'

/-- **A run.** -/
theorem Kept.always {events : List DavEvent} (hkept : Kept fs held) (hrun : Happens hash fs events)
    (hcareful : Always Careful held events) : Always Respects held events := by
  induction events generalizing fs held with
  | nil => trivial
  | cons e events ih =>
    obtain ⟨hpossible, hrun⟩ := hrun
    obtain ⟨hfirst, hrest⟩ := hcareful
    exact ⟨hkept.respects hpossible hfirst, ih (hkept.next hpossible hfirst) hrun hrest⟩

end Steps

/-- The file system of the places that the paths lead to. -/
def files (paths : List Str) : FileSystem where
  stat path := if place path ∈ paths.map place then .ok .file else .error .fileNotFound
  lstat path := if place path ∈ paths.map place then .ok .file else .error .fileNotFound

theorem nodeExists_files (paths : List Str) (path : Str) :
    nodeExists (files paths) path = true ↔ place (cstr path) ∈ paths.map place := by
  unfold nodeExists files
  dsimp only
  split_ifs with h
  · simpa [Except.isOk, Except.toBool] using h
  · simpa [Except.isOk, Except.toBool] using h

/-- From one of these file systems to another, whatever is gone lay at one of the `changed` paths. -/
theorem files_changed {before after changed : List Str}
    (h : ∀ pos ∈ before.map place, pos ∈ after.map place ∨ pos ∈ changed.map place) (path : Str)
    (hpath : nodeExists (files before) path) (hclear : ∀ p ∈ changed, ¬ LeadsThrough (cstr path) p) :
    nodeExists (files after) path := by
  rw [nodeExists_files] at hpath ⊢
  rcases h _ hpath with hafter | hchanged
  · exact hafter
  · obtain ⟨p, hp, hplace⟩ := List.mem_map.mp hchanged
    exact absurd (leadsThrough_of_place_eq hplace.symm) (hclear p hp)

/-- The digests of `/srv/www/a` and of `/srv/www/./a`. -/
def sampleHash (path : Str) : Str :=
  if path = ascii "/srv/www/a" then ascii "951becc48595065f94347a4b50da24a1c1a8ec66"
  else if path = ascii "/srv/www/./a" then ascii "b75c454f443ed77e1192faaff202258e6c95f255"
  else []

def sampleSystem (paths : List Str) : LockSystem where
  dav :=
    { fs := files paths
      sha1 := fun path => sampleHash path ++ ascii "0000"
      opens := fun _ => true
      creates := fun _ => true
      removes := fun _ => true
      renames := fun _ _ => true
      tree := fun _ => [] }
  parses := true
  sends := true

def unlockedFiles : List Str := [ascii "/srv/sys/webdav/locks", ascii "/srv/www/a"]

def lockFile : Str := ascii "/srv/sys/webdav/locks/951becc48595065f94347a4b50da24a1c1a8ec660000"

def lockEvent : DavEvent where
  env := guestsWrite
  sys := sampleSystem unlockedFiles
  method := .lock
  r := { davCopy "" with uri := ascii "/a" }
  after := files (lockFile :: unlockedFiles)

def deleteEvent (uri : String) (after : List Str) : DavEvent where
  env := guestsWrite
  sys := sampleSystem (lockFile :: unlockedFiles)
  method := .command .davdelete
  r := { davCopy "" with uri := ascii uri }
  after := files after

theorem lockEvent_created : lockEvent.created = [lockFile] := by
  unfold lockEvent sampleSystem sampleHash davCopy lockFile unlockedFiles
  repeat rw [ascii_ofList]
  decide

theorem lockEvent_possible : lockEvent.Possible sampleHash (files unlockedFiles) where
  before := rfl
  digest := ⟨ascii "0000", rfl, fun path => rfl⟩
  kept := by
    have hremoved : lockEvent.removed = [] := rfl
    rw [hremoved]
    apply files_changed
    unfold lockFile unlockedFiles
    repeat rw [ascii_ofList]
    decide
  fresh := by
    rw [lockEvent_created]
    apply files_changed
    unfold lockFile unlockedFiles
    repeat rw [ascii_ofList]
    decide
  there := by
    rw [lockEvent_created, List.forall_mem_singleton]
    unfold lockEvent lockFile unlockedFiles
    repeat rw [ascii_ofList]
    decide
  gone := fun p hp => absurd hp List.not_mem_nil

theorem deleteEvent_possible {uri : String} {after removed : List Str}
    (hremoved : (deleteEvent uri after).removed = removed)
    (hkept : ∀ pos ∈ (lockFile :: unlockedFiles).map place,
      pos ∈ after.map place ∨ pos ∈ removed.map place)
    (hfresh : ∀ pos ∈ after.map place,
      pos ∈ (lockFile :: unlockedFiles).map place ∨ pos ∈ ([] : List Str).map place)
    (hgone : ∀ p ∈ removed, ¬ nodeExists (files after) p) :
    (deleteEvent uri after).Possible sampleHash (files (lockFile :: unlockedFiles)) where
  before := rfl
  digest := ⟨ascii "0000", rfl, fun path => rfl⟩
  kept := by
    rw [hremoved]
    exact files_changed hkept
  fresh := files_changed hfresh
  there := fun p hp => absurd hp List.not_mem_nil
  gone := fun p hp _ => hgone p (hremoved ▸ hp)

def heldLock : HeldLock :=
  ⟨ascii "/srv/www/a", ascii "951becc48595065f94347a4b50da24a1c1a8ec660000", lockFile⟩

theorem nextHeld_lockEvent : nextHeld [] lockEvent = [heldLock] := by
  have hanswer : lockEvent.answer.status = some 201 := by
    unfold lockEvent sampleSystem sampleHash davCopy unlockedFiles
    repeat rw [ascii_ofList]
    decide
  have hsource : lockEvent.r.source = ascii "/srv/www/a" := by decide
  have htoken : lockEvent.sys.dav.sha1 (ascii "/srv/www/a") =
      ascii "951becc48595065f94347a4b50da24a1c1a8ec660000" := by
    unfold lockEvent sampleSystem sampleHash
    repeat rw [ascii_ofList]
    decide
  have hloc : lockLoc lockEvent.sys.dav lockEvent.r (ascii "/srv/www/a") = lockFile := by
    unfold lockEvent sampleSystem sampleHash davCopy lockFile
    repeat rw [ascii_ofList]
    decide
  rw [nextHeld_lock rfl hanswer, hsource, htoken, hloc, heldLock]

end MyServer.Http
