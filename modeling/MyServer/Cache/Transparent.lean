import MyServer.Cache.Accounting
import MyServer.Lib.Safety

/-!
# Opens through the cache and the files themselves

Histories of opens, closes and changes of the files, with what an open through the cache reads and what the file
would give that is opened directly.
-/

open MyServer.Cache

namespace MyServer.Transparent

/-- What `CachedFileBuffer::revalidate` compares. -/
structure Stat where
  dev : UInt64
  ino : UInt64
  mtime : Int
  deriving DecidableEq

/-- What a name leads to at one moment: a regular file, or nothing. -/
structure Node where
  stat : Option Stat
  readable : Bool
  /-- The name is a symbolic link itself. -/
  link : Bool
  content : Str

abbrev Files := Str → Node

/-- `File::openFile` for reading, and the bytes that it gives. -/
def openFile (file : Node) (noFollowSymlink : Bool) : Option Str :=
  if file.stat.isSome ∧ file.readable ∧ ¬ (noFollowSymlink ∧ file.link) then some file.content else none

def revalidate (buffer file : Node) : Bool := file.stat.isSome ∧ file.stat = buffer.stat

/-- `buffers` has the file that each record was made of, as it was then, and `past` what there was at each moment. -/
structure World where
  factory : Factory
  buffers : Nat → Node
  files : Files
  past : List Files

inductive Event where
  | opens (filename : Str) (noFollowSymlink : Bool) (ticks : UInt64)
  | closes (r : Nat) (ticks : UInt64)
  | changes (files : Files)

namespace World

variable (w : World) (filename : Str) (noFollowSymlink : Bool) (ticks : UInt64)

/-- `fstat` of a file that is open never tells a link. -/
def answers : Answers where
  ticks := ticks
  noFollowSymlink := noFollowSymlink
  revalidates := (w.factory.get filename).any fun r => revalidate (w.buffers r) (w.files filename)
  file := (openFile (w.files filename) noFollowSymlink).map fun content => ⟨UInt64.ofNat content.length, false⟩

/-- A record that is made is made of the file as it is. -/
def load : Nat → Node :=
  match w.factory.get filename with
  | some _ => w.buffers
  | none => Function.update w.buffers w.factory.next (w.files filename)

def openCached : Outcome × Factory := factoryOpen w.factory filename (w.answers filename noFollowSymlink ticks)

/-- What is read of the file that `open` returns. -/
def result : Option Str :=
  match (w.openCached filename noFollowSymlink ticks).1 with
  | .threw => none
  | .plain => openFile (w.files filename) noFollowSymlink
  | .cached r => some (w.load filename r).content
  | .done => none

end World

section

variable (spaceUsage : UInt64 → UInt64 → Usage)

def step (w : World) : Event → Option World
  | .opens filename noFollowSymlink ticks => some { w with
      factory := (w.openCached filename noFollowSymlink ticks).2
      buffers := w.load filename }
  | .closes r ticks =>
    if refCounter w.factory.heap r = 0 then none
    else some { w with factory := close spaceUsage w.factory r ticks }
  | .changes files => some { w with files, past := files :: w.past }

end

def start (size maxSize minSize : UInt64) (files : Files) : World where
  factory := { Factory.new size with maxSize, minSize }
  buffers _ := files []
  files := files
  past := [files]

/-! ## What is promised -/

namespace World

variable (w : World) (filename : Str) (noFollowSymlink : Bool) (ticks : UInt64)

/-- There is a record, and it agrees with the file or has been found to in the time for which that is valid. -/
structure Served (r : Nat) (record : Record) : Prop where
  get : w.factory.get filename = some r
  heap : w.factory.heap r = some record
  valid : if record.expireTime ≤ ticks then revalidate (w.buffers r) (w.files filename) = true
    else record.invalidCache = false

/-- A change of the content shows in what is compared. -/
def Tells : Prop := ∀ files ∈ w.past, (files filename).stat = (w.files filename).stat →
  (files filename).content = (w.files filename).content

/-- Nothing is said of a link that is not to be followed and that is in the cache. -/
def Right : Prop := ∀ (filename : Str) (noFollowSymlink : Bool) (ticks : UInt64),
  ((¬ ∃ r record, w.Served filename ticks r record) →
    w.result filename noFollowSymlink ticks = openFile (w.files filename) noFollowSymlink) ∧
  ∀ r record, w.Served filename ticks r record → ¬ (noFollowSymlink ∧ (w.files filename).link) →
    ∃ files ∈ w.past, w.buffers r = files filename ∧ (openFile (files filename) false).isSome ∧
      w.result filename noFollowSymlink ticks = openFile (files filename) false ∧
      (record.expireTime ≤ ticks → w.Tells filename →
        w.result filename noFollowSymlink ticks = some (w.files filename).content)

/-- An open through the cache succeeds when the file can be opened, and gives what it is when the record has
expired. -/
def Unseen : Prop := ∀ (filename : Str) (noFollowSymlink : Bool) (ticks : UInt64),
  (w.result filename noFollowSymlink ticks).isSome = (openFile (w.files filename) noFollowSymlink).isSome ∧
  ∀ r record, w.factory.get filename = some r → w.factory.heap r = some record → record.expireTime ≤ ticks →
    w.result filename noFollowSymlink ticks = openFile (w.files filename) noFollowSymlink

end World

/-! ## The records -/

/-- None of them was made of a link. -/
def NoLinks (f : Factory) : Prop := ∀ r record, f.heap r = some record → record.symlink = false

section

variable {f : Factory}

theorem NoLinks.modify (h : NoLinks f) (r : Nat) {g : Record → Record} (hg : ∀ record, (g record).symlink = record.symlink) :
    NoLinks (f.modify r g) := by
  intro q record hrecord
  unfold Factory.modify at hrecord
  dsimp only at hrecord
  by_cases hq : q = r
  · rw [hq, Function.update_self] at hrecord
    obtain ⟨before, hbefore, rfl⟩ := Option.map_eq_some_iff.mp hrecord
    rw [hg, h r before hbefore]
  · rw [Function.update_of_ne hq] at hrecord
    exact h q record hrecord

theorem NoLinks.revalidate (h : NoLinks f) (r : Nat) (a : Answers) : NoLinks (f.revalidate r a) := by
  unfold Factory.revalidate
  split_ifs
  · exact h.modify r fun _ => rfl
  · exact h

theorem NoLinks.purge (h : NoLinks f) (hf : WellFormed f) : NoLinks f.purgeRecords := by
  intro r record hrecord
  rw [hf.heap_purge] at hrecord
  split_ifs at hrecord
  exact h r record hrecord

theorem NoLinks.insert (h : NoLinks f) (filename : Str) {info : FileInfo} (hinfo : info.symlink = false) (ticks : UInt64) :
    NoLinks (f.insert filename info ticks) := by
  intro r record hrecord
  by_cases hr : r = f.next
  · rw [hr, Factory.heap_insert_next] at hrecord
    rw [← Option.some.inj hrecord]
    exact hinfo
  · rw [Factory.heap_insert_of_ne _ _ _ _ hr] at hrecord
    exact h r record hrecord

theorem NoLinks.factoryOpen (h : NoLinks f) (hf : WellFormed f) (filename : Str) {a : Answers}
    (ha : ∀ info ∈ a.file, info.symlink = false) : NoLinks (factoryOpen f filename a).2 := by
  have hpurged := h.purge hf
  unfold Cache.factoryOpen
  dsimp only
  cases f.purgeRecords.get filename with
  | some r =>
    dsimp only
    unfold openHit
    dsimp only
    split_ifs
    · exact hpurged.revalidate r a
    · exact (hpurged.revalidate r a).modify r fun _ => rfl
  | none =>
    dsimp only
    unfold openMiss
    cases hfile : a.file with
    | none => exact hpurged
    | some info =>
      dsimp only
      split_ifs
      · exact hpurged
      · exact (hpurged.insert filename (ha info hfile) a.ticks).modify _ fun _ => rfl

theorem NoLinks.remove (h : NoLinks f) (filename : Str) : NoLinks (f.remove filename) := by
  unfold Factory.remove
  split <;> exact h

theorem NoLinks.close (h : NoLinks f) (spaceUsage : UInt64 → UInt64 → Usage) (r : Nat) (ticks : UInt64) :
    NoLinks (close spaceUsage f r ticks) := by
  have hdec : NoLinks (f.decRef r) := h.modify r fun _ => rfl
  unfold Cache.close nullReferences
  repeat' split
  all_goals first
    | exact hdec
    | exact hdec.remove _

end

/-! ## The table -/

section

variable {f : Factory} {filename name : Str} {a : Answers} {r : Nat}

/-- An open leaves the table as it is, or puts in a record that it makes. -/
theorem buffers_factoryOpen (f : Factory) (filename : Str) (a : Answers) :
    (factoryOpen f filename a).2.buffers = f.buffers ∨
      (f.get filename = none ∧ a.file.isSome ∧
        (factoryOpen f filename a).2.buffers = f.buffers.insert filename f.next) := by
  have hget : f.purgeRecords.get filename = f.get filename := rfl
  unfold factoryOpen
  dsimp only
  rw [hget]
  cases hfound : f.get filename with
  | some r =>
    left
    dsimp only
    unfold openHit Factory.revalidate
    dsimp only
    split_ifs <;> rfl
  | none =>
    dsimp only
    unfold openMiss
    cases hfile : a.file with
    | none => exact .inl rfl
    | some info =>
      dsimp only
      split_ifs
      · exact .inl rfl
      · exact .inr ⟨rfl, rfl, rfl⟩

theorem get_remove (h : (f.remove filename).get name = some r) : f.get name = some r := by
  unfold Factory.remove at h
  split at h
  · have hlookup : (f.buffers.erase filename).lookup name = some r := h
    rw [HashMap.lookup_erase_eq] at hlookup
    split_ifs at hlookup
    exact hlookup
  · exact h

theorem get_close (spaceUsage : UInt64 → UInt64 → Usage) {q : Nat} {ticks : UInt64}
    (h : (close spaceUsage f q ticks).get name = some r) : f.get name = some r := by
  unfold Cache.close nullReferences at h
  repeat' split at h
  all_goals first
    | exact h
    | exact get_remove (f := f.decRef q) h

end

/-! ## What a history keeps -/

structure Kept (w : World) : Prop where
  good : Good w.factory
  noLinks : NoLinks w.factory
  now : w.files ∈ w.past
  made : ∀ filename r, w.factory.get filename = some r →
    ∃ files ∈ w.past, w.buffers r = files filename ∧ (openFile (files filename) false).isSome

theorem openFile_of_isSome {file : Node} {noFollowSymlink : Bool} (h : (openFile file noFollowSymlink).isSome) :
    openFile file noFollowSymlink = some file.content ∧ openFile file false = some file.content := by
  unfold openFile at h ⊢
  split_ifs at h ⊢ with hopen hfollow
  · exact ⟨rfl, rfl⟩
  · exact absurd ⟨hopen.1, hopen.2.1, by simp⟩ hfollow
  all_goals exact absurd h (by simp)

variable {w w' : World}

theorem Kept.lt_next (h : Kept w) {filename : Str} {r : Nat} (hget : w.factory.get filename = some r) :
    r < w.factory.next := by
  by_contra hle
  have halive := h.good.wellFormed.alive r (Factory.mem_held_of_get hget)
  rw [h.good.wellFormed.fresh r (not_lt.mp hle)] at halive
  exact absurd halive (by simp)

/-- The buffers of the records that are in the table stay. -/
theorem Kept.load_eq (h : Kept w) (filename : Str) {name : Str} {r : Nat} (hget : w.factory.get name = some r) :
    w.load filename r = w.buffers r := by
  unfold World.load
  cases w.factory.get filename with
  | some q => rfl
  | none => exact Function.update_of_ne (h.lt_next hget).ne ..

theorem load_next {filename : Str} (hget : w.factory.get filename = none) :
    w.load filename w.factory.next = w.files filename := by
  unfold World.load
  rw [hget]
  exact Function.update_self ..

theorem kept_start (size maxSize minSize : UInt64) (files : Files) : Kept (start size maxSize minSize files) where
  good :=
    ⟨⟨(Good.new size).wellFormed.nodup, (Good.new size).wellFormed.alive, (Good.new size).wellFormed.fresh⟩,
      (Good.new size).accounted.1, (Good.new size).accounted.2⟩
  noLinks := fun r record h => absurd h (by simp [start, Factory.new, Factory.initializeCache])
  now := List.mem_cons_self
  made := fun filename r h => absurd h (by simp [start, Factory.new, Factory.initializeCache, Factory.get])

theorem Kept.opens (h : Kept w) (filename : Str) (noFollowSymlink : Bool) (ticks : UInt64) : Kept { w with
    factory := (w.openCached filename noFollowSymlink ticks).2
    buffers := w.load filename } where
  good := h.good.factoryOpen filename _
  noLinks := by
    refine h.noLinks.factoryOpen h.good.wellFormed filename fun info hinfo => ?_
    obtain ⟨content, -, rfl⟩ := Option.map_eq_some_iff.mp hinfo
    rfl
  now := h.now
  made := by
    intro name r hget
    have hold : w.factory.get name = some r → ∃ files ∈ w.past, w.load filename r = files name ∧
        (openFile (files name) false).isSome := fun hbefore => by
      rw [h.load_eq filename hbefore]
      exact h.made name r hbefore
    have hlookup : (w.openCached filename noFollowSymlink ticks).2.buffers.lookup name = some r := hget
    obtain hsame | ⟨hnone, hfile, hinsert⟩ :=
      buffers_factoryOpen w.factory filename (w.answers filename noFollowSymlink ticks)
    · rw [World.openCached, hsame] at hlookup
      exact hold hlookup
    · rw [World.openCached, hinsert, HashMap.lookup_insert_eq] at hlookup
      split_ifs at hlookup with hname
      · subst hname
        rw [← Option.some.inj hlookup]
        refine ⟨w.files, h.now, load_next hnone, ?_⟩
        have hopen : (openFile (w.files name) noFollowSymlink).isSome := by simpa [World.answers] using hfile
        rw [(openFile_of_isSome hopen).2]
        rfl
      · exact hold hlookup

theorem Kept.step (h : Kept w) (spaceUsage : UInt64 → UInt64 → Usage) {e : Event}
    (hstep : step spaceUsage w e = some w') : Kept w' := by
  cases e with
  | opens filename noFollowSymlink ticks =>
    rw [← Option.some.inj hstep]
    exact h.opens filename noFollowSymlink ticks
  | closes r ticks =>
    dsimp only [Transparent.step] at hstep
    split_ifs at hstep
    rw [← Option.some.inj hstep]
    exact ⟨h.good.close spaceUsage r ticks, h.noLinks.close spaceUsage r ticks, h.now,
      fun filename q hget => h.made filename q (get_close spaceUsage hget)⟩
  | changes files =>
    rw [← Option.some.inj hstep]
    refine ⟨h.good, h.noLinks, List.mem_cons_self, fun filename r hget => ?_⟩
    obtain ⟨before, hbefore, hmade⟩ := h.made filename r hget
    exact ⟨before, List.mem_cons_of_mem _ hbefore, hmade⟩

/-! ## What an open gives -/

/-- Without a record the file is opened, whether a record is made of it or not. -/
theorem result_of_none {filename : Str} (hget : w.factory.get filename = none) (noFollowSymlink : Bool)
    (ticks : UInt64) :
    w.result filename noFollowSymlink ticks = openFile (w.files filename) noFollowSymlink := by
  have hpurged : w.factory.purgeRecords.get filename = none := hget
  have hnext : w.factory.purgeRecords.next = w.factory.next := rfl
  unfold World.result World.openCached factoryOpen
  dsimp only
  rw [hpurged]
  dsimp only
  unfold openMiss
  cases hfile : openFile (w.files filename) noFollowSymlink with
  | none => simp [World.answers, hfile]
  | some content =>
    have hopen := openFile_of_isSome (Option.isSome_of_eq_some hfile)
    rw [hfile] at hopen
    simp only [World.answers, hfile, Option.map_some]
    split_ifs
    · rfl
    · dsimp only
      rw [hnext, load_next hget, hopen.1]

/-- What the record says after it has been looked at. -/
def valid (w : World) (filename : Str) (ticks : UInt64) (r : Nat) (record : Record) : Bool :=
  if record.expireTime ≤ ticks then revalidate (w.buffers r) (w.files filename) else !record.invalidCache

theorem Kept.result_of_some (h : Kept w) {filename : Str} {r : Nat} {record : Record}
    (hget : w.factory.get filename = some r) (hheap : w.factory.heap r = some record) (noFollowSymlink : Bool)
    (ticks : UInt64) : w.result filename noFollowSymlink ticks =
      if valid w filename ticks r record then some (w.buffers r).content
      else openFile (w.files filename) noFollowSymlink := by
  have hpurged : w.factory.purgeRecords.get filename = some r := hget
  have hlive : w.factory.purgeRecords.heap r = some record := by
    have htable : r ∈ w.factory.buffers.entries.map fun e => e.2 := by
      rw [entries_of_lookup hget, Multiset.map_cons]
      exact Multiset.mem_cons_self r _
    rw [h.good.wellFormed.heap_purge, if_neg (h.good.wellFormed.not_dead_of_table htable), hheap]
  have hlink := h.noLinks r record hheap
  have hbypasses : (w.factory.purgeRecords.revalidate r (w.answers filename noFollowSymlink ticks)).bypasses r
      (w.answers filename noFollowSymlink ticks) = !valid w filename ticks r record := by
    have hticks : (w.answers filename noFollowSymlink ticks).ticks = ticks := rfl
    unfold Factory.revalidate Factory.bypasses valid
    rw [hlive, Option.any_some, hticks]
    by_cases hexpired : record.expireTime ≤ ticks
    · simp [hexpired, Factory.modify, hlive, hlink, World.answers, hget]
    · simp [hexpired, hlive, hlink]
  unfold World.result World.openCached factoryOpen
  dsimp only
  rw [hpurged]
  dsimp only
  unfold openHit
  dsimp only
  rw [hbypasses]
  cases hvalid : valid w filename ticks r record with
  | true =>
    simp only [Bool.not_true, Bool.false_eq_true, if_false, if_true]
    rw [h.load_eq filename hget]
  | false =>
    simp only [Bool.not_false, Bool.false_eq_true, if_false, if_true]
    unfold Cache.openFile
    cases hfile : openFile (w.files filename) noFollowSymlink <;> simp [World.answers, hfile]

theorem served_iff {filename : Str} {ticks : UInt64} {r : Nat} {record : Record} :
    w.Served filename ticks r record ↔
      w.factory.get filename = some r ∧ w.factory.heap r = some record ∧ valid w filename ticks r record = true := by
  have hvalid : valid w filename ticks r record = true ↔
      if record.expireTime ≤ ticks then revalidate (w.buffers r) (w.files filename) = true
      else record.invalidCache = false := by
    unfold valid
    split_ifs <;> simp
  rw [hvalid]
  exact ⟨fun h => ⟨h.get, h.heap, h.valid⟩, fun h => ⟨h.1, h.2.1, h.2.2⟩⟩

theorem Kept.right (h : Kept w) : w.Right := by
  intro filename noFollowSymlink ticks
  constructor
  · intro hnone
    cases hget : w.factory.get filename with
    | none => exact result_of_none hget noFollowSymlink ticks
    | some r =>
      obtain ⟨record, hheap⟩ := Option.isSome_iff_exists.mp
        (h.good.wellFormed.alive r (Factory.mem_held_of_get hget))
      rw [h.result_of_some hget hheap, if_neg]
      exact fun hvalid => hnone ⟨r, record, served_iff.mpr ⟨hget, hheap, hvalid⟩⟩
  · intro r record hserved _
    obtain ⟨hget, hheap, hvalid⟩ := served_iff.mp hserved
    obtain ⟨files, hpast, hmade, hopen⟩ := h.made filename r hget
    have hcontent := (openFile_of_isSome hopen).1
    have hresult := h.result_of_some hget hheap noFollowSymlink ticks
    rw [if_pos hvalid, hmade] at hresult
    refine ⟨files, hpast, hmade, hopen, hresult.trans hcontent.symm, fun hexpired htells => ?_⟩
    have hagrees := hserved.valid
    rw [if_pos hexpired, hmade, revalidate, decide_eq_true_iff] at hagrees
    rw [hresult, htells files hpast hagrees.2.symm]

/-- **What the cache promises**, in every history: an open that no record serves is the open of the file, and a
record serves what the file was, or is when the time of the record has passed. -/
theorem cache_right (spaceUsage : UInt64 → UInt64 → Usage) (size maxSize minSize : UInt64) (files : Files)
    (events : List Event) :
    Safety.Throughout (step spaceUsage) World.Right events (start size maxSize minSize files) :=
  Safety.throughout_of_invariant (fun _ _ _ hw _ hstep => hw.step spaceUsage hstep) (fun _ hw => hw.right)
    (kept_start size maxSize minSize files) (Safety.along_of_forall fun _ _ _ => trivial)

/-! ## A file that is removed -/

def oneFile : Files := fun _ => ⟨some ⟨1, 2, 3⟩, true, false, [ch 'a']⟩

def noFile : Files := fun _ => ⟨none, false, false, []⟩

/-- It is opened and removed, and then opened again. -/
def removed : List Event := [.opens [] false 0, .changes noFile]

theorem not_cache_unseen : ¬ ∀ (spaceUsage : UInt64 → UInt64 → Usage) (size maxSize minSize : UInt64) (files : Files)
    (events : List Event),
    Safety.Throughout (step spaceUsage) World.Unseen events (start size maxSize minSize files) := by
  intro h
  have hall := h (fun _ _ => ⟨true, false, false⟩) 10 0 0 oneFile removed
  have hlast := hall.last rfl [] false 1
  exact absurd hlast.1 (by decide)

end MyServer.Transparent
