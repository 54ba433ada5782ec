import MyServer.HashMap.Refinement
import MyServer.Lib.Safety

/-!
# The cache of security files (security_cache.cpp)

Threads that get parsers, keep them and give them back. What stands between two operations on what they
share is one step.
-/

open MyServer.HashMap

namespace MyServer.SecurityCache

abbrev Directory := { dir : Str // dir ≠ [] }

section File

variable (nodeExists : Str → Bool)

/-- From the end of the path, at every slash but the first byte. -/
def climb (file sys secFileName : Str) : Nat → Option Str
  | 0 =>
    let out := sys ++ [ch '/'] ++ secFileName
    if nodeExists out then some out else none
  | i + 1 =>
    let secFile := file.take (i + 1) ++ [ch '/'] ++ secFileName
    if file.getD (i + 1) 0 = ch '/' ∧ nodeExists secFile then some secFile
    else climb file sys secFileName i

/-- Without the slashes at the end. -/
def trim (dir : Str) : Nat → Str
  | 0 => dir.take 1
  | i + 1 => if dir.getD (i + 1) 0 = ch '/' then trim dir i else dir.take (i + 2)

def getSecurityFile (dir : Directory) (sys secFileName : Str) : Option Str :=
  let file := trim dir.val (dir.val.length - 1)
  let secFile := dir.val ++ [ch '/'] ++ secFileName
  if nodeExists secFile then some secFile else climb nodeExists file sys secFileName (file.length - 1)

end File

/-- With what is used of its parser. -/
structure CacheNode where
  key : Str
  ref : Int
  useXpath : Bool
  mtime : Int

/-- What a step finds on the disk. `opens` is the time that a parser has which opens the file. -/
structure Disk where
  lastModTime : Option Int
  readable : Bool
  size : Nat
  opens : Option Int

inductive Place
  | idle
  /-- Behind the lock of `getParser`, with the node that was found. -/
  | looked (file : Str) (node : Option Nat) (useXpath : Bool) (maxSize : Nat)
  /-- With a node that is not in the dictionary yet. -/
  | opened (file : Str) (node : Nat)
  /-- With the node that was there before. -/
  | stored (node : Nat) (old : Option Nat)
  /-- In `mayDrop`, before the lock. -/
  | dropping (node : Nat)

/-- The nodes in memory by their numbers. `holders` has a node once for each caller that has it and for each
call that took it, and `leaked` has those that a call had taken which returned NULL. -/
structure Cache (threads : Nat) where
  nodes : Nat → Option CacheNode
  next : Nat
  dictionary : Mapping Nat
  toRemove : List Nat
  limit : Nat
  place : Fin threads → Place
  holders : List Nat
  leaked : List Nat
  undefined : Bool

inductive Event (threads : Nat)
  | getParser (t : Fin threads) (nodeExists : Str → Bool) (dir : Directory) (sys : Str) (useXpath : Bool)
    (secFileName : Str) (maxSize : Nat)
  /-- The call goes on. -/
  | proceed (t : Fin threads) (disk : Disk)
  | decRef (t : Fin threads) (node : Nat)
  | mayDrop (t : Fin threads)

namespace Cache

variable {threads : Nat}

def new (threads limit : Nat) : Cache threads where
  nodes := fun _ => none
  next := 0
  dictionary := ∅
  toRemove := []
  limit := limit
  place := fun _ => .idle
  holders := []
  leaked := []
  undefined := false

variable (s : Cache threads) (t : Fin threads)

def goes (place : Place) : Cache threads := { s with place := Function.update s.place t place }

def write (n : Nat) (node : CacheNode) : Cache threads :=
  { s with nodes := Function.update s.nodes n (some node) }

/-- The call returns NULL. -/
def fails (taken : Option Nat) : Cache threads :=
  { s.goes t .idle with
    holders := s.holders.diff taken.toList
    leaked := s.leaked ++ taken.toList }

/-- The lookup, all of it under the lock. -/
def look (file : Str) (useXpath : Bool) (maxSize : Nat) : Cache threads :=
  match s.dictionary.lookup file with
  | none => s.goes t (.looked file none useXpath maxSize)
  | some n =>
    match s.nodes n with
    | none => { s with undefined := true }
    | some node =>
      { (s.write n { node with ref := node.ref + 1 }).goes t (.looked file (some n) useXpath maxSize) with
        holders := n :: s.holders }

/-- A node that serves the call is read again when the file has changed. -/
def revalidate (n : Nat) (node : CacheNode) (useXpath : Bool) (maxSize : Nat) (disk : Disk) : Cache threads :=
  if disk.lastModTime = none ∨ disk.lastModTime = some node.mtime then s.goes t .idle
  else if maxSize ≠ 0 ∧ (disk.readable = false ∨ maxSize < disk.size) then s.fails t (some n)
  else
    match disk.opens with
    | none => (s.write n { node with useXpath }).fails t (some n)
    | some mtime => (s.write n { node with useXpath, mtime }).goes t .idle

/-- A node is created. One that was taken is forgotten. -/
def create (file : Str) (taken : Option Nat) (useXpath : Bool) (disk : Disk) : Cache threads :=
  match disk.opens with
  | none => s.fails t taken
  | some mtime =>
    { (s.write s.next { key := file, ref := 0, useXpath, mtime }).goes t (.opened file s.next) with
      next := s.next + 1
      holders := s.holders.diff taken.toList }

/-- The loop of `mayDrop` finds nothing to delete. -/
def passes (toRemove : List Nat) : Bool := toRemove.all fun n => (s.nodes n).any fun node => node.ref ≠ 0

/-- Or it deletes the first node that it can, and goes on with an iterator that `erase` has made invalid. -/
def deletes : List Nat → Cache threads
  | [] => s
  | n :: rest =>
    match s.nodes n with
    | none => { s with undefined := true }
    | some node =>
      if node.ref = 0 then
        { s with
          nodes := Function.update s.nodes n none
          toRemove := s.toRemove.erase n
          undefined := true }
      else deletes rest

def mayDrop (n : Nat) : Cache threads :=
  if s.passes s.toRemove = false then s.deletes s.toRemove
  else if s.limit ≤ s.dictionary.keys.card then
    match s.nodes n with
    | none => { s with undefined := true }
    | some node =>
      { s.goes t .idle with
        dictionary := s.dictionary.erase node.key
        toRemove := s.toRemove ++ [n] }
  else s.goes t .idle

end Cache

/-- `none` is a step that cannot be. Nothing is said of what comes after an undefined one. -/
def step {threads : Nat} (s : Cache threads) : Event threads → Option (Cache threads)
  | .getParser t nodeExists dir sys useXpath secFileName maxSize =>
    match s.undefined, s.place t with
    | false, .idle =>
      match getSecurityFile nodeExists dir sys secFileName with
      | none => some s
      | some file => some (s.look t file useXpath maxSize)
    | _, _ => none
  | .proceed t disk =>
    match s.undefined, s.place t with
    | false, .looked file none useXpath _ => some (s.create t file none useXpath disk)
    | false, .looked file (some n) useXpath maxSize =>
      match s.nodes n with
      | none => some { s with undefined := true }
      | some node =>
        if useXpath = false ∨ node.useXpath = true then some (s.revalidate t n node useXpath maxSize disk)
        else some (s.create t file (some n) useXpath disk)
    | false, .opened file n =>
      some { s.goes t (.stored n (s.dictionary.lookup file)) with dictionary := s.dictionary.insert file n }
    | false, .stored n old =>
      some { s.goes t .idle with toRemove := s.toRemove ++ old.toList, holders := n :: s.holders }
    | _, _ => none
  | .decRef t n =>
    match s.undefined, s.place t with
    | false, .idle =>
      if n ∈ s.holders then
        match s.nodes n with
        | none => some { s with undefined := true }
        | some node =>
          some { (s.write n { node with ref := node.ref - 1 }).goes t
              (if node.ref - 1 = 0 then .dropping n else .idle) with
            holders := s.holders.erase n }
      else none
    | _, _ => none
  | .mayDrop t =>
    match s.undefined, s.place t with
    | false, .dropping n => some (s.mayDrop t n)
    | _, _ => none

/-! ## What the counters are for -/

section

variable {threads : Nat}

/-- Nobody has a node that is deleted or to be deleted twice, and the counters count those that have it. -/
structure Sound (s : Cache threads) : Prop where
  defined : s.undefined = false
  alive : ∀ n ∈ s.holders, s.nodes n ≠ none
  once : ∀ n ∈ s.holders, s.toRemove.count n ≤ 1
  counted : ∀ n node, s.nodes n = some node → node.ref = s.holders.count n
  kept : s.leaked = []

def SoundRun (events : List (Event threads)) (s : Cache threads) : Prop := Safety.Throughout step Sound events s

/-- A call that goes on finds no file that a parser opens. -/
def Event.Fails : Event threads → Prop
  | .proceed _ disk => disk.opens = none
  | _ => True

/-! ## While every call returns NULL -/

structure Empty (s : Cache threads) : Prop where
  nodes : s.nodes = fun _ => none
  dictionary : s.dictionary = ∅
  toRemove : s.toRemove = []
  holders : s.holders = []
  leaked : s.leaked = []
  undefined : s.undefined = false
  place : ∀ t, s.place t = .idle ∨ ∃ file useXpath maxSize, s.place t = .looked file none useXpath maxSize

theorem empty_new (threads limit : Nat) : Empty (Cache.new threads limit) :=
  ⟨rfl, rfl, rfl, rfl, rfl, rfl, fun _ => Or.inl rfl⟩

variable {s s' : Cache threads} {t : Fin threads}

theorem Empty.sound (h : Empty s) : Sound s where
  defined := h.undefined
  alive := by
    rw [h.holders]
    exact nofun
  once := by
    rw [h.holders]
    exact nofun
  counted := by
    rw [h.nodes]
    exact nofun
  kept := h.leaked

@[simp] theorem goes_self (place : Place) : (s.goes t place).place t = place := Function.update_self ..

theorem goes_of_ne {t' : Fin threads} (ht : t' ≠ t) (place : Place) : (s.goes t place).place t' = s.place t' :=
  Function.update_of_ne ht ..

theorem Empty.goes (h : Empty s) {place : Place}
    (hplace : place = .idle ∨ ∃ file useXpath maxSize, place = .looked file none useXpath maxSize) :
    Empty (s.goes t place) := by
  refine ⟨h.nodes, h.dictionary, h.toRemove, h.holders, h.leaked, h.undefined, fun t' => ?_⟩
  by_cases ht : t' = t
  · rw [ht, goes_self]
    exact hplace
  · rw [goes_of_ne ht]
    exact h.place t'

theorem Empty.look (h : Empty s) (file : Str) (useXpath : Bool) (maxSize : Nat) :
    Empty (s.look t file useXpath maxSize) := by
  have hnone : s.dictionary.lookup file = none := by
    rw [h.dictionary]
    exact Finmap.lookup_empty file
  unfold Cache.look
  rw [hnone]
  exact h.goes (Or.inr ⟨_, _, _, rfl⟩)

theorem Empty.fails (h : Empty s) : Empty (s.fails t none) := by
  have hgoes := h.goes (t := t) (Or.inl rfl)
  refine ⟨hgoes.nodes, hgoes.dictionary, hgoes.toRemove, ?_, ?_, hgoes.undefined, hgoes.place⟩
  · exact h.holders
  · exact (List.append_nil _).trans h.leaked

/-- The thread has a node that it is about to return, and that nobody has counted. -/
def Creating (s : Cache threads) (t : Fin threads) : Prop :=
  (∃ file n, s.place t = .opened file n) ∨ ∃ n old, s.place t = .stored n old

/-- **Without a node a call fails, or creates one.** -/
theorem Empty.step (h : Empty s) {e : Event threads} (hstep : step s e = some s') :
    e.Fails ∧ Empty s' ∨ ¬ e.Fails ∧ ∃ t, Creating s' t := by
  cases e with
  | getParser t nodeExists dir sys useXpath secFileName maxSize =>
    refine Or.inl ⟨trivial, ?_⟩
    rcases h.place t with hplace | ⟨_, _, _, hplace⟩
    · simp only [SecurityCache.step, h.undefined, hplace] at hstep
      cases hfile : getSecurityFile nodeExists dir sys secFileName with
      | none =>
        rw [hfile] at hstep
        cases hstep
        exact h
      | some file =>
        rw [hfile] at hstep
        cases hstep
        exact h.look file useXpath maxSize
    · simp only [SecurityCache.step, h.undefined, hplace] at hstep
      cases hstep
  | proceed t disk =>
    rcases h.place t with hplace | ⟨file, useXpath, maxSize, hplace⟩
    · simp only [SecurityCache.step, h.undefined, hplace] at hstep
      cases hstep
    · simp only [SecurityCache.step, h.undefined, hplace] at hstep
      cases hstep
      unfold Cache.create
      cases hopens : disk.opens with
      | none => exact Or.inl ⟨hopens, h.fails⟩
      | some mtime =>
        refine Or.inr ⟨fun hfails => ?_, t, Or.inl ⟨file, s.next, goes_self _⟩⟩
        change disk.opens = none at hfails
        rw [hopens] at hfails
        cases hfails
  | decRef t n =>
    rcases h.place t with hplace | ⟨_, _, _, hplace⟩
    · simp only [SecurityCache.step, h.undefined, hplace] at hstep
      rw [if_neg (by rw [h.holders]; exact List.not_mem_nil)] at hstep
      cases hstep
    · simp only [SecurityCache.step, h.undefined, hplace] at hstep
      cases hstep
  | mayDrop t =>
    rcases h.place t with hplace | ⟨_, _, _, hplace⟩ <;>
    · simp only [SecurityCache.step, h.undefined, hplace] at hstep
      cases hstep

theorem Empty.soundRun {events : List (Event threads)} (h : Empty s) (hfails : ∀ e ∈ events, e.Fails) :
    SoundRun events s := by
  refine @Safety.throughout_of_invariant _ _ _ _ Empty (fun _ e => e.Fails) s events ?_ (fun _ => Empty.sound) h
    (Safety.along_of_forall fun e he _ => hfails e he)
  intro s e s' h he hstep
  rcases h.step hstep with ⟨-, h'⟩ | ⟨hnot, -⟩
  · exact h'
  · exact absurd he hnot

/-! ## Once there is a node -/

def Event.thread : Event threads → Fin threads
  | .getParser t .. | .proceed t _ | .decRef t _ | .mayDrop t => t

section Frame

variable {t' : Fin threads} (ht : t' ≠ t)

include ht

theorem look_place (file : Str) (useXpath : Bool) (maxSize : Nat) :
    (s.look t file useXpath maxSize).place t' = s.place t' := by
  unfold Cache.look
  split
  · exact goes_of_ne ht _
  · split
    · rfl
    · exact goes_of_ne ht _

theorem fails_place (taken : Option Nat) : (s.fails t taken).place t' = s.place t' := goes_of_ne ht _

theorem revalidate_place (n : Nat) (node : CacheNode) (useXpath : Bool) (maxSize : Nat) (disk : Disk) :
    (s.revalidate t n node useXpath maxSize disk).place t' = s.place t' := by
  unfold Cache.revalidate
  split_ifs
  · exact goes_of_ne ht _
  · exact fails_place ht _
  · split
    · exact fails_place ht _
    · exact goes_of_ne ht _

theorem create_place (file : Str) (taken : Option Nat) (useXpath : Bool) (disk : Disk) :
    (s.create t file taken useXpath disk).place t' = s.place t' := by
  unfold Cache.create
  split
  · exact fails_place ht _
  · exact goes_of_ne ht _

end Frame

theorem deletes_place (l : List Nat) (t : Fin threads) : (s.deletes l).place t = s.place t := by
  induction l with
  | nil => rfl
  | cons n l ih =>
    unfold Cache.deletes
    split
    · rfl
    · split_ifs
      · rfl
      · exact ih

theorem mayDrop_place {t' : Fin threads} (ht : t' ≠ t) (n : Nat) : (s.mayDrop t n).place t' = s.place t' := by
  unfold Cache.mayDrop
  split_ifs
  · exact deletes_place _ _
  · split
    · rfl
    · exact goes_of_ne ht _
  · exact goes_of_ne ht _

/-- A step is a thread's own. -/
theorem step_place {e : Event threads} (hstep : step s e = some s') (ht : t ≠ e.thread) :
    s'.place t = s.place t := by
  cases e with
  | getParser t' nodeExists dir sys useXpath secFileName maxSize =>
    simp only [SecurityCache.step] at hstep
    split at hstep
    · split at hstep
      · cases hstep
        rfl
      · cases hstep
        exact look_place ht _ _ _
    · cases hstep
  | proceed t' disk =>
    simp only [SecurityCache.step] at hstep
    split at hstep
    · cases hstep
      exact create_place ht _ _ _ _
    · split at hstep
      · cases hstep
        rfl
      · split_ifs at hstep
        · cases hstep
          exact revalidate_place ht _ _ _ _ _
        · cases hstep
          exact create_place ht _ _ _ _
    · cases hstep
      exact goes_of_ne ht _
    · cases hstep
      exact goes_of_ne ht _
    · cases hstep
  | decRef t' n =>
    simp only [SecurityCache.step] at hstep
    split at hstep
    · split_ifs at hstep
      split at hstep
      · cases hstep
        rfl
      · cases hstep
        exact goes_of_ne ht _
    · cases hstep
  | mayDrop t' =>
    simp only [SecurityCache.step] at hstep
    split at hstep
    · cases hstep
      exact mayDrop_place ht _
    · cases hstep

/-- **The return of a node that was created upsets the count.** -/
theorem not_sound_of_return {disk : Disk} {n : Nat} {old : Option Nat} (hplace : s.place t = .stored n old)
    (hsound : Sound s) (hstep : step s (.proceed t disk) = some s') : ¬ Sound s' := by
  intro hsound'
  simp only [SecurityCache.step, hsound.defined, hplace] at hstep
  cases hstep
  cases hnode : s.nodes n with
  | none => exact hsound'.alive n List.mem_cons_self hnode
  | some node =>
    have hbefore := hsound.counted n node hnode
    have hafter := hsound'.counted n node hnode
    change node.ref = ((n :: s.holders).count n : Nat) at hafter
    rw [List.count_cons_self] at hafter
    omega

/-- So the thread never returns it. -/
theorem Creating.step (h : Creating s t) {e : Event threads} (hstep : step s e = some s') (hsound : Sound s)
    (hsound' : Sound s') : Creating s' t := by
  by_cases ht : t = e.thread
  · cases e with
    | getParser t' nodeExists dir sys useXpath secFileName maxSize =>
      obtain rfl : t = t' := ht
      rcases h with ⟨_, _, hplace⟩ | ⟨_, _, hplace⟩ <;>
      · simp only [SecurityCache.step, hsound.defined, hplace] at hstep
        cases hstep
    | proceed t' disk =>
      obtain rfl : t = t' := ht
      rcases h with ⟨file, n, hplace⟩ | ⟨n, old, hplace⟩
      · simp only [SecurityCache.step, hsound.defined, hplace] at hstep
        cases hstep
        exact Or.inr ⟨n, _, goes_self _⟩
      · exact absurd hsound' (not_sound_of_return hplace hsound hstep)
    | decRef t' n =>
      obtain rfl : t = t' := ht
      rcases h with ⟨_, _, hplace⟩ | ⟨_, _, hplace⟩ <;>
      · simp only [SecurityCache.step, hsound.defined, hplace] at hstep
        cases hstep
    | mayDrop t' =>
      obtain rfl : t = t' := ht
      rcases h with ⟨_, _, hplace⟩ | ⟨_, _, hplace⟩ <;>
      · simp only [SecurityCache.step, hsound.defined, hplace] at hstep
        cases hstep
  · unfold Creating
    rw [step_place hstep ht]
    exact h

theorem Creating.run {events : List (Event threads)} (h : Creating s t) (hsound : SoundRun events s)
    (hrun : Safety.run SecurityCache.step events s = some s') : Creating s' t :=
  @Safety.Throughout.run_invariant _ _ _ _ (fun s => Creating s t) s s' events
    (fun _ _ _ h hs hs' hstep => h.step hstep hs hs') h hsound hrun

/-! ## Every run -/

theorem Empty.fails_of_soundRun {events : List (Event threads)} (h : Empty s)
    (hrun : Safety.run SecurityCache.step events s = some s') (hquiet : ∀ t, s'.place t = .idle)
    (hsound : SoundRun events s) : ∀ e ∈ events, e.Fails := by
  induction events generalizing s with
  | nil => exact nofun
  | cons e events ih =>
    obtain ⟨s₁, hstep, hrun⟩ := Option.bind_eq_some_iff.mp hrun
    have hsound₁ := hsound.2 s₁ hstep
    rcases h.step hstep with ⟨he, h₁⟩ | ⟨-, t, hcreating⟩
    · exact List.forall_mem_cons.mpr ⟨he, ih h₁ hrun hsound₁⟩
    · rcases hcreating.run hsound₁ hrun with ⟨_, _, hplace⟩ | ⟨_, _, hplace⟩ <;>
      · rw [hquiet t] at hplace
        cases hplace

end

/-- **A run is sound when no call gets a node,** and when every call has returned, only then. -/
theorem soundRun_iff (threads limit : Nat) (events : List (Event threads)) :
    ((∀ e ∈ events, e.Fails) → SoundRun events (Cache.new threads limit)) ∧
      ∀ s, Safety.run step events (Cache.new threads limit) = some s → (∀ t, s.place t = .idle) →
        (SoundRun events (Cache.new threads limit) ↔ ∀ e ∈ events, e.Fails) :=
  have hempty := empty_new threads limit
  ⟨hempty.soundRun, fun _ hrun hquiet => ⟨hempty.fails_of_soundRun hrun hquiet, hempty.soundRun⟩⟩

/-! ## Runs that go wrong -/

def good : Disk where
  lastModTime := some 5
  readable := true
  size := 100
  opens := some 5

def caller : Fin 1 := Fin.last 0

def ask (dir : Directory) : Event 1 :=
  .getParser caller (fun _ => true) dir (ascii "/sys") false (ascii ".security.xml") 0

def created (dir : Directory) : List (Event 1) :=
  [ask dir, .proceed caller good, .proceed caller good, .proceed caller good]

def docs : Directory := ⟨ascii "/docs", by decide⟩

def pub : Directory := ⟨ascii "/pub", by decide⟩

theorem not_counted : ¬ ∀ (threads limit : Nat) (events : List (Event threads)),
    SoundRun events (Cache.new threads limit) := by
  intro hall
  obtain ⟨s, hrun, hquiet⟩ : ∃ s, Safety.run step (created docs) (Cache.new 1 25) = some s ∧
      ∀ t, s.place t = .idle :=
    ⟨_, rfl, fun t => by rw [Subsingleton.elim t caller]; rfl⟩
  have hfails := (empty_new 1 25).fails_of_soundRun hrun hquiet (hall 1 25 (created docs))
  have hsecond := hfails (.proceed caller good) (List.mem_cons_of_mem _ List.mem_cons_self)
  exact absurd hsecond nofun

/-- With room for one node, a second use of each of two files is enough to delete what a caller still has. -/
theorem held_deleted : ∃ events s n, Safety.run step events (Cache.new 1 1) = some s ∧
    n ∈ s.holders ∧ s.nodes n = none :=
  ⟨created docs ++ [ask docs, .proceed caller good, .decRef caller 0, .mayDrop caller] ++
    created pub ++ [ask pub, .proceed caller good, .decRef caller 1, .mayDrop caller], _, 0, rfl, by decide, rfl⟩

end MyServer.SecurityCache
