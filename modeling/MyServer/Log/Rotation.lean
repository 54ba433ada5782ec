import MyServer.Lib.Latest
import MyServer.Log.FiltersChain
import MyServer.Log.RotatedName

/-!
# Rotation

`LogStream::log` and `FileStream::streamCycle` (log_stream.cpp, file_stream.cpp). The files are what their
paths lead to, and nobody else writes to them.
-/

open MyServer.Files (completePath splitPath dot)
open MyServer.Filter
open MyServer.Latest (latest texts NothingLost)

namespace MyServer.Rotation

/-- The working directory, and the filters that there are. -/
structure Setting (σ : Type) where
  wd : Str
  getFilter : Str → Option (FilterKind σ)

structure FileStream (σ : Type) where
  filepath : Str
  cycle : Nat
  fc : Filter.FiltersChain σ
  files : Str → Option Str
  cycledStreams : List Str

variable {σ : Type}

namespace FileStream

def content (s : FileStream σ) : Str := (s.files s.filepath).getD []

def append (bytes : Str) (s : FileStream σ) : FileStream σ :=
  { s with files := Function.update s.files s.filepath (some (s.content ++ bytes)) }

def needToCycle (s : FileStream σ) : Bool := s.cycle ≠ 0 && s.cycle ≤ s.content.length

/-- `rename`: a file of the new name is lost, but for one that is the file itself. -/
def rename (before after : Str) (files : Str → Option Str) : Str → Option Str :=
  if before = after then files else Function.update (Function.update files after (files before)) before none

/-- `openFile` with `FILE_OPEN_ALWAYS`. -/
def openFile (path : Str) (files : Str → Option Str) : Str → Option Str :=
  if files path = none then Function.update files path (some []) else files

def streamCycle (wd : Str) (t : Tm) (s : FileStream σ) : FileStream σ :=
  let newFileName := makeNewFileName wd s.filepath t
  { s with
    files := openFile s.filepath (rename s.filepath newFileName s.files)
    cycledStreams := s.cycledStreams ++ [newFileName] }

def flush (s : FileStream σ) : FileStream σ := { s with fc := s.fc.flush.1 }.append s.fc.flush.2

/-- Whether all filters were there, and what is left then. -/
def resetFilters (cfg : Setting σ) (s : FileStream σ) : Bool × FileStream σ :=
  let built := chain cfg.getFilter s.fc.getFilters
  (built.1, { s with fc := built.2.1 }.append built.2.2)

def doCycle (cfg : Setting σ) (t : Tm) (s : FileStream σ) : Bool × FileStream σ :=
  (s.flush.streamCycle cfg.wd t).resetFilters cfg

def write (message : Str) (s : FileStream σ) : FileStream σ :=
  { s with fc := (s.fc.write message).1 }.append (s.fc.write message).2

def log (cfg : Setting σ) (t : Tm) (message : Str) (s : FileStream σ) : FileStream σ :=
  if s.needToCycle then
    if (s.doCycle cfg t).1 then (s.doCycle cfg t).2.write message else (s.doCycle cfg t).2
  else s.write message

/-- The stream on a file that was not there, as `FileStreamCreator` makes it. -/
def create (cfg : Setting σ) (location : Str) (filters : List Str) (cycle : Nat) (files : Str → Option Str) :
    FileStream σ :=
  let built := chain cfg.getFilter filters
  ⟨location, cycle, built.2.1, Function.update files location (some built.2.2), []⟩

end FileStream

/-- A message, with what the clock says; or another cycle size. -/
inductive Event where
  | log (t : Tm) (message : Str)
  | setCycle (cycle : Nat)

def step (cfg : Setting σ) (s : FileStream σ) : Event → FileStream σ
  | .log t message => s.log cfg t message
  | .setCycle cycle => { s with cycle := cycle }

def run (cfg : Setting σ) (events : List Event) (s : FileStream σ) : FileStream σ := events.foldl (step cfg) s

/-- All that was to be logged. -/
def messages : List Event → Str
  | [] => []
  | .log _ message :: events => message ++ messages events
  | .setCycle _ :: events => messages events

/-- The rotated files in the order of their rotations, each once, and then the current file. -/
def recovered (decode : Str → Str) (s : FileStream σ) : Str :=
  (s.cycledStreams.dedup.map fun name => decode ((s.files name).getD [])).flatten ++ decode s.content

/-- No rotated file that holds a text has the name that this event rotates to. -/
def Keeps (cfg : Setting σ) (decode : Str → Str) (s : FileStream σ) : Event → Prop
  | .log t _ => s.needToCycle → makeNewFileName cfg.wd s.filepath t ∈ s.cycledStreams →
      decode ((s.files (makeNewFileName cfg.wd s.filepath t)).getD []) = []
  | .setCycle _ => True

/-- At every event of the run. -/
def KeepsAll (cfg : Setting σ) (decode : Str → Str) : List Event → FileStream σ → Prop
  | [], _ => True
  | e :: events, s => Keeps cfg decode s e ∧ KeepsAll cfg decode events (step cfg s e)

@[simp] theorem step_log (cfg : Setting σ) (s : FileStream σ) (t : Tm) (message : Str) :
    step cfg s (.log t message) = s.log cfg t message := rfl

@[simp] theorem step_setCycle (cfg : Setting σ) (s : FileStream σ) (cycle : Nat) :
    step cfg s (.setCycle cycle) = { s with cycle := cycle } := rfl

/-! ## One step -/

/-- How a stream stands: these texts were rotated under these names, and these messages are in the file. -/
structure Stands (cfg : Setting σ) (decode : Str → Str) (filters : List Str) (location : Str)
    (rotations : List (Str × Str)) (current : List Str) (s : FileStream σ) : Prop where
  filepath : s.filepath = location
  names : s.cycledStreams = rotations.map Prod.fst
  stored : ∀ e ∈ latest rotations, ∃ bytes, s.files e.1 = some bytes ∧ decode bytes = e.2
  apart : ∀ e ∈ rotations, e.1 ≠ location
  built : ∃ order, (order = filters ∨ order = filters.reverse) ∧
    s.fc = ((chain cfg.getFilter order).2.1.writeAll current).1 ∧
    s.files location = some ((chain cfg.getFilter order).2.2 ++ ((chain cfg.getFilter order).2.1.writeAll current).2)

section

variable {cfg : Setting σ} {decode : Str → Str} {filters : List Str} {location : Str}
  {rotations : List (Str × Str)} {current : List Str} {s : FileStream σ}

theorem Stands.content_eq (h : Stands cfg decode filters location rotations current s) :
    s.files location = some s.content := by
  obtain ⟨_, _, _, hfile⟩ := h.built
  unfold FileStream.content
  rw [h.filepath, hfile]
  rfl

/-- One more message in the file. -/
theorem Stands.write (h : Stands cfg decode filters location rotations current s) (message : Str) :
    Stands cfg decode filters location rotations (current ++ [message]) (s.write message) := by
  obtain ⟨order, horder, hfc, hfile⟩ := h.built
  have hcontent := h.content_eq
  have hpath := h.filepath
  constructor
  · exact hpath
  · exact h.names
  · intro e he
    obtain ⟨bytes, hbytes, hdecode⟩ := h.stored e he
    refine ⟨bytes, ?_, hdecode⟩
    have hne := h.apart e (Latest.mem_of_mem he)
    unfold FileStream.write FileStream.append
    dsimp only
    rw [hpath, Function.update_of_ne hne, hbytes]
  · exact h.apart
  · refine ⟨order, horder, ?_, ?_⟩
    · rw [writeAll_append]
      unfold FileStream.write FileStream.append
      rw [hfc]
    · rw [hcontent, Option.some.injEq] at hfile
      unfold FileStream.write FileStream.append FileStream.content at *
      dsimp only
      rw [hpath, Function.update_self, writeAll_append, ← hfc]
      dsimp only
      rw [hpath] at hfile
      rw [hfile, List.append_assoc]

theorem getFilters_writeAll (c : Filter.FiltersChain σ) (messages : List Str) :
    (c.writeAll messages).1.getFilters = c.getFilters := by
  unfold Filter.FiltersChain.getFilters
  rw [writeAll_filters]

theorem getFilters_flush (c : Filter.FiltersChain σ) : c.flush.1.getFilters = c.getFilters := rfl

/-- What a rotation leaves under every path. -/
theorem doCycle_files {t : Tm} (hne : makeNewFileName cfg.wd s.filepath t ≠ s.filepath) :
    (s.doCycle cfg t).2.files =
      Function.update (Function.update s.files (makeNewFileName cfg.wd s.filepath t) (some (s.content ++ s.fc.flush.2)))
        s.filepath (some (chain cfg.getFilter s.fc.getFilters).2.2) := by
  funext path
  unfold FileStream.doCycle FileStream.resetFilters FileStream.streamCycle FileStream.flush FileStream.append
    FileStream.openFile FileStream.rename FileStream.content
  dsimp only
  simp only [if_neg hne.symm, Function.update_self, if_true, getFilters_flush, Option.getD_some, List.nil_append]
  by_cases hpath : path = s.filepath
  · subst hpath
    rw [Function.update_self, Function.update_self]
  · rw [Function.update_of_ne hpath, Function.update_of_ne hpath, Function.update_of_ne hpath,
      Function.update_of_ne hpath]
    by_cases hname : path = makeNewFileName cfg.wd s.filepath t
    · rw [hname, Function.update_self, Function.update_self]
    · rw [Function.update_of_ne hname, Function.update_of_ne hname, Function.update_of_ne hpath]

/-- A rotation puts the file under its new name, with all that was logged to it, and starts another. -/
theorem Stands.doCycle (h : Stands cfg decode filters location rotations current s) {t : Tm}
    (hfilters : Filter.ReadsBack cfg.getFilter decode filters)
    (hreverse : Filter.ReadsBack cfg.getFilter decode filters.reverse)
    (hown : makeNewFileName cfg.wd location t ≠ location) :
    (s.doCycle cfg t).1 = true ∧ Stands cfg decode filters location
      (rotations ++ [(makeNewFileName cfg.wd location t, current.flatten)]) [] (s.doCycle cfg t).2 := by
  obtain ⟨order, horder, hfc, hfile⟩ := h.built
  have hopen := h.content_eq
  have hpath := h.filepath
  have horderReads : Filter.ReadsBack cfg.getFilter decode order := by
    rcases horder with rfl | rfl
    · exact hfilters
    · exact hreverse
  have hnext : order.reverse = filters ∨ order.reverse = filters.reverse := by
    rcases horder with rfl | rfl
    · exact .inr rfl
    · exact .inl (List.reverse_reverse _)
  have hnextReads : Filter.ReadsBack cfg.getFilter decode order.reverse := by
    rcases hnext with hnext | hnext
    · exact hnext ▸ hfilters
    · exact hnext ▸ hreverse
  have hnames : s.fc.getFilters = order.reverse := by
    rw [hfc, getFilters_writeAll, horderReads.getFilters]
  have hfiles := @doCycle_files σ cfg s t (by rw [hpath]; exact hown)
  rw [hpath, hnames] at hfiles
  have hcontent : s.content ++ s.fc.flush.2 = (chain cfg.getFilter order).2.2 ++
      ((chain cfg.getFilter order).2.1.writeAll current).2 ++
      ((chain cfg.getFilter order).2.1.writeAll current).1.flush.2 := by
    rw [hopen, Option.some.injEq] at hfile
    rw [hfile, hfc]
  have hbuilt : (s.doCycle cfg t).1 = true ∧ (s.doCycle cfg t).2.fc = (chain cfg.getFilter order.reverse).2.1 := by
    unfold FileStream.doCycle FileStream.resetFilters FileStream.streamCycle FileStream.flush FileStream.append
    dsimp only
    rw [getFilters_flush, hnames]
    exact ⟨hnextReads.built, rfl⟩
  refine ⟨hbuilt.1, hpath, ?_, ?_, ?_, order.reverse, hnext, hbuilt.2, ?_⟩
  · have hcycled : (s.doCycle cfg t).2.cycledStreams = s.cycledStreams ++ [makeNewFileName cfg.wd s.filepath t] := rfl
    rw [hcycled, h.names, hpath, List.map_append]
    rfl
  · intro e he
    rw [Latest.latest_append] at he
    rw [hfiles]
    rcases List.mem_append.mp he with he | he
    · obtain ⟨hmem, hname⟩ := List.mem_filter.mp he
      obtain ⟨bytes, hbytes, hdecode⟩ := h.stored e hmem
      refine ⟨bytes, ?_, hdecode⟩
      rw [Function.update_of_ne (h.apart e (Latest.mem_of_mem hmem)), Function.update_of_ne (by simpa using hname),
        hbytes]
    · obtain rfl := List.mem_singleton.mp he
      refine ⟨_, by rw [Function.update_of_ne hown, Function.update_self], ?_⟩
      rw [hcontent]
      exact horderReads.finished current
  · intro e he
    rcases List.mem_append.mp he with he | he
    · exact h.apart e he
    · rw [List.mem_singleton.mp he]
      exact hown
  · rw [hfiles, Function.update_self]
    simp [Filter.FiltersChain.writeAll]

theorem Stands.setCycle (h : Stands cfg decode filters location rotations current s) (cycle : Nat) :
    Stands cfg decode filters location rotations current { s with cycle := cycle } :=
  ⟨h.filepath, h.names, h.stored, h.apart, h.built⟩

/-- What is found under a name, by the rotations. -/
theorem Stands.decode_eq (h : Stands cfg decode filters location rotations current s) {e : Str × Str}
    (he : e ∈ latest rotations) : decode ((s.files e.1).getD []) = e.2 := by
  obtain ⟨bytes, hbytes, hdecode⟩ := h.stored e he
  rw [hbytes]
  exact hdecode

/-- Nothing is lost under a name that is free, or whose file holds nothing. -/
theorem Stands.keeps_iff (h : Stands cfg decode filters location rotations current s) (name : Str) :
    (name ∈ s.cycledStreams → decode ((s.files name).getD []) = []) ↔
      ∀ text, (name, text) ∈ latest rotations → text = [] := by
  rw [h.names]
  constructor
  · intro hkeeps text hmem
    have hname : name ∈ rotations.map Prod.fst := List.mem_map.mpr ⟨_, Latest.mem_of_mem hmem, rfl⟩
    exact (h.decode_eq hmem).symm.trans (hkeeps hname)
  · intro hall hname
    have hlatest : name ∈ (latest rotations).map Prod.fst := by
      rw [Latest.names_latest, List.mem_dedup]
      exact hname
    obtain ⟨e, he, rfl⟩ := List.mem_map.mp hlatest
    rw [h.decode_eq he, hall e.2 he]

/-- **A run** logs its messages, and loses nothing when and only when all its events keep what there is. -/
theorem Stands.run (h : Stands cfg decode filters location rotations current s)
    (hfilters : Filter.ReadsBack cfg.getFilter decode filters)
    (hreverse : Filter.ReadsBack cfg.getFilter decode filters.reverse)
    (hown : ∀ t, makeNewFileName cfg.wd location t ≠ location) (events : List Event) :
    ∃ rotations' current', Stands cfg decode filters location rotations' current' (run cfg events s) ∧
      texts rotations' ++ current'.flatten = texts rotations ++ current.flatten ++ messages events ∧
      (NothingLost rotations' ↔ NothingLost rotations ∧ KeepsAll cfg decode events s) := by
  induction events generalizing s rotations current with
  | nil => exact ⟨rotations, current, h, by simp [messages], by simp [KeepsAll]⟩
  | cons event events ih =>
    cases event with
    | setCycle cycle =>
      obtain ⟨rotations', current', hstands, htexts, hlost⟩ := ih (h.setCycle cycle)
      refine ⟨rotations', current', hstands, htexts, ?_⟩
      rw [hlost, KeepsAll]
      simp only [Keeps, true_and, step]
    | log t message =>
      by_cases hcycle : s.needToCycle = true
      · obtain ⟨hdone, hcycled⟩ := h.doCycle hfilters hreverse (hown t)
        have hlog : step cfg s (.log t message) = (s.doCycle cfg t).2.write message := by
          rw [step_log, FileStream.log, if_pos hcycle, if_pos hdone]
        obtain ⟨rotations', current', hstands, htexts, hlost⟩ := ih (hcycled.write message)
        refine ⟨rotations', current', ?_, ?_, ?_⟩
        · rw [MyServer.Rotation.run, List.foldl_cons, hlog]
          exact hstands
        · rw [htexts]
          simp [messages]
        · rw [hlost, Latest.nothingLost_append, ← h.keeps_iff, KeepsAll, hlog, and_assoc]
          simp only [Keeps, hcycle, forall_const, h.filepath]
      · have hlog : step cfg s (.log t message) = s.write message := by
          rw [step_log, FileStream.log, if_neg hcycle]
        obtain ⟨rotations', current', hstands, htexts, hlost⟩ := ih (h.write message)
        refine ⟨rotations', current', ?_, ?_, ?_⟩
        · rw [MyServer.Rotation.run, List.foldl_cons, hlog]
          exact hstands
        · rw [htexts]
          simp [messages]
        · rw [hlost, KeepsAll, hlog]
          have hkeeps : Keeps cfg decode s (.log t message) := fun h => absurd h hcycle
          exact ⟨fun hall => ⟨hall.1, hkeeps, hall.2⟩, fun hall => ⟨hall.1, hall.2.2⟩⟩

/-- What is read back from the files. -/
theorem Stands.recovered_eq (h : Stands cfg decode filters location rotations current s)
    (hfilters : Filter.ReadsBack cfg.getFilter decode filters)
    (hreverse : Filter.ReadsBack cfg.getFilter decode filters.reverse) :
    recovered decode s = texts (latest rotations) ++ current.flatten := by
  obtain ⟨order, horder, -, hfile⟩ := h.built
  have horderReads : Filter.ReadsBack cfg.getFilter decode order := by
    rcases horder with rfl | rfl
    · exact hfilters
    · exact hreverse
  have hcurrent : decode s.content = current.flatten := by
    rw [h.content_eq, Option.some.injEq] at hfile
    rw [hfile, horderReads.unfinished]
  unfold recovered
  rw [hcurrent, h.names, ← Latest.names_latest, List.map_map]
  have htexts : (latest rotations).map ((fun name => decode ((s.files name).getD [])) ∘ Prod.fst) =
      (latest rotations).map Prod.snd := List.map_congr_left fun e he => h.decode_eq he
  rw [htexts]
  rfl

theorem stands_create (cfg : Setting σ) (decode : Str → Str) (filters : List Str) (location : Str) (cycle : Nat)
    (files : Str → Option Str) :
    Stands cfg decode filters location [] [] (FileStream.create cfg location filters cycle files) := by
  refine ⟨rfl, rfl, nofun, nofun, filters, .inl rfl, rfl, ?_⟩
  simp [FileStream.create, Filter.FiltersChain.writeAll]

/-- **Nothing is missing** in the files of a run when and only when all its events keep what there is. -/
theorem recovered_run_iff (hfilters : Filter.ReadsBack cfg.getFilter decode filters)
    (hreverse : Filter.ReadsBack cfg.getFilter decode filters.reverse)
    (hown : ∀ t, makeNewFileName cfg.wd location t ≠ location) (cycle : Nat) (files : Str → Option Str)
    (events : List Event) :
    recovered decode (run cfg events (FileStream.create cfg location filters cycle files)) = messages events ↔
      KeepsAll cfg decode events (FileStream.create cfg location filters cycle files) := by
  obtain ⟨rotations, current, hstands, htexts, hlost⟩ :=
    (stands_create cfg decode filters location cycle files).run hfilters hreverse hown events
  have hall : messages events = texts rotations ++ current.flatten := by simpa using htexts.symm
  rw [hstands.recovered_eq hfilters hreverse, hall, List.append_cancel_right_eq, Latest.texts_latest_iff, hlost]
  simp [NothingLost]

end

/-- A name is not what it rotates to itself, but for one in which the extension stands earlier too. -/
theorem rotated_ne_self {f : Str} (h : f.length ≤ (stem f).length + 1 + (getFileExt f).length) (t : Tm) :
    rotated f t ≠ f := by
  intro heq
  have hlen := congrArg List.length heq
  have hstamp : 0 < (stamp t).length := by
    have hfields := congrArg List.length (stamp_eq t)
    simp only [stampFields, Separated.fields_cons, List.length_cons, List.length_append] at hfields
    omega
  have hext : (if getFileExt f ≠ [] then [dot] else []).length + (getFileExt f).length ≥ (getFileExt f).length :=
    Nat.le_add_left _ _
  unfold rotated at hlen
  simp only [List.length_append, List.length_singleton] at hlen
  omega

/-- No filter, or one that does what is documented of filters. -/
inductive OneFilter {σ : Type} (cfg : Setting σ) : List Str → (Str → Str) → Prop where
  | none : OneFilter cfg [] id
  | one {f : FilterKind σ} {decode : Str → Str} (hf : cfg.getFilter f.name = some f) (hdoc : Documented f decode) :
    OneFilter cfg [f.name] decode

theorem OneFilter.readsBack {σ : Type} {cfg : Setting σ} {filters : List Str} {decode : Str → Str}
    (h : OneFilter cfg filters decode) :
    Filter.ReadsBack cfg.getFilter decode filters ∧ Filter.ReadsBack cfg.getFilter decode filters.reverse := by
  cases h with
  | none => exact ⟨readsBack_nil _, readsBack_nil _⟩
  | one hf hdoc => exact ⟨readsBack_singleton hf hdoc, readsBack_singleton hf hdoc⟩

instance (cfg : Setting σ) (decode : Str → Str) (s : FileStream σ) : (e : Event) → Decidable (Keeps cfg decode s e)
  | .log _ _ => inferInstanceAs (Decidable (_ → _ → _))
  | .setCycle _ => isTrue trivial

instance KeepsAll.decidable (cfg : Setting σ) (decode : Str → Str) :
    (events : List Event) → (s : FileStream σ) → Decidable (KeepsAll cfg decode events s)
  | [], _ => isTrue trivial
  | e :: events, s =>
    have := KeepsAll.decidable cfg decode events (step cfg s e)
    inferInstanceAs (Decidable (Keeps cfg decode s e ∧ KeepsAll cfg decode events (step cfg s e)))

def plain : Setting Unit := ⟨ascii "/", fun _ => none⟩

/-- The 6th of November 1994, so many seconds behind 8:49. -/
def second (sec : Nat) (h : sec ≤ 60) : Tm :=
  ⟨⟨0, by decide⟩, 6, 10, 1994, 8, 49, sec, by decide, by decide, by decide, by decide, h⟩

theorem plain_own (t : Tm) : makeNewFileName plain.wd (ascii "/l/a.log") t ≠ ascii "/l/a.log" := by
  have hsplit : splitPath (completePath plain.wd (ascii "/l/a.log")) = (ascii "/l/", ascii "a.log") := by decide
  have hwhole : ascii "/l/a.log" = ascii "/l/" ++ ascii "a.log" := rfl
  unfold makeNewFileName
  rw [hsplit, hwhole, Ne, List.append_cancel_left_eq]
  exact rotated_ne_self (by decide) t

/-- Three messages, the last two at these seconds. -/
def three (second₂ second₃ : Tm) : List Event :=
  [.log (second 1 (by decide)) [1], .log second₂ [2], .log second₃ [3]]

end MyServer.Rotation
