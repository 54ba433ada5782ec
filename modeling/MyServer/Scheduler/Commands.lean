import MyServer.Bytes
import MyServer.Lib.Safety

/-!
# The commands of the event loop (connections_scheduler.cpp)

Threads that want something of the event loop write it into a socket pair, field after field, while they own
`eventsSocketMutex`. `eventLoopHandler` reads the fields as they come. A write goes in whole, a read waits for the
first byte and takes what is there.
-/

namespace MyServer.EventLoop

/-- A value of `n` bytes. -/
abbrev Field (n : Nat) := { s : Str // s.length = n }

/-- What a thread can ask for: `addWaitingConnection`, `listener` and `release`. -/
inductive Command where
  | connection (handle : Field 4) (c : Field 8) (tv : Field 16)
  | listener (arg : Field 8)
  | release
deriving DecidableEq

/-- The writes, in their order. -/
def Command.chunks : Command → List Str
  | connection handle c tv => [[ch 'c'], handle, c, tv]
  | listener arg => [[ch 'l'], arg]
  | release => [[ch 'r']]

/-- What the handler has done. -/
inductive Done where
  | eventOnce (handle c tv : Str)
  | eventAdd (arg tv : Str)
deriving DecidableEq

/-- Where the handler is: the event is waited for, `bytesToRead` is asked for, the fields of a command are read,
or it came back without adding its own event again. -/
inductive Reader where
  | waiting
  | atLoop (tv : Str)
  | fields (cmd : Byte) (got : List Str) (sizes : List Nat) (tv : Str)
  | returned
deriving DecidableEq

/-- The side of `eventLoopHandler`: what was written and not read, and what the handler is at and has done. -/
structure Handler where
  channel : Str
  reader : Reader
  done : List Done
deriving DecidableEq

structure State (Thread : Type) where
  /-- The calls that wait for the mutex. -/
  calls : Thread → Option Command
  /-- The owner, and what it still writes. -/
  mutex : Option (Thread × List Str)
  handler : Handler
  /-- The commands in the order in which their threads got the mutex. -/
  order : List Command

inductive Event (Thread : Type) where
  | call (t : Thread) (c : Command)
  | lock (t : Thread)
  | write
  | unlock
  | read

/-- `timeval tv = {10, 0}`. -/
def tenSeconds : Str := 10 :: List.replicate 15 0

/-- What the `switch` does with the fields that it read, and its `tv` then. -/
def perform (cmd : Byte) (got : List Str) (tv : Str) : List Done × Str :=
  match got with
  | [handle, c, tv'] => if cmd = ch 'c' then ([.eventOnce handle c tv'], tv') else ([], tv)
  | [arg] => if cmd = ch 'l' then ([.eventAdd arg tv], tv) else ([], tv)
  | _ => ([], tv)

/-- The `switch`, up to the fields that a command has. -/
def begin (cmd : Byte) (tv : Str) : Reader :=
  if cmd = ch 'c' then .fields cmd [] [4, 8, 16] tv
  else if cmd = ch 'l' then .fields cmd [] [8] tv
  else if cmd = ch 'r' then .returned
  else .atLoop tv

/-- A step of the handler. -/
def Handler.read (s : Handler) : Option Handler :=
  match s.reader with
  | .waiting => if s.channel = [] then none else some { s with reader := .atLoop tenSeconds }
  | .atLoop tv =>
    match s.channel with
    | [] => some { s with reader := .waiting }
    | cmd :: rest => some { s with channel := rest, reader := begin cmd tv }
  | .fields cmd got [] tv =>
    some { s with done := s.done ++ (perform cmd got tv).1, reader := .atLoop (perform cmd got tv).2 }
  | .fields cmd got (n :: sizes) tv =>
    if s.channel = [] then none
    else some { s with channel := s.channel.drop n, reader := .fields cmd (got ++ [s.channel.take n]) sizes tv }
  | .returned => none

section Threads

variable {Thread : Type}

namespace State

def start : State Thread := ⟨fun _ => none, none, ⟨[], .waiting, []⟩, []⟩

/-- What the owner of the mutex still writes. -/
def unwritten (s : State Thread) : List Str := (s.mutex.map Prod.snd).getD []

end State

/-- The socket pair has room for `capacity` bytes. A write for which there is none waits. -/
def step [DecidableEq Thread] (capacity : Nat) (s : State Thread) : Event Thread → Option (State Thread)
  | .call t c =>
    if s.calls t = none ∧ s.mutex.map Prod.fst ≠ some t then
      some { s with calls := Function.update s.calls t (some c) }
    else none
  | .lock t =>
    match s.calls t, s.mutex with
    | some c, none =>
      some { s with calls := Function.update s.calls t none, mutex := some (t, c.chunks), order := s.order ++ [c] }
    | _, _ => none
  | .write =>
    match s.mutex with
    | some (t, chunk :: chunks) =>
      if s.handler.channel.length + chunk.length ≤ capacity then
        some { s with mutex := some (t, chunks), handler := { s.handler with channel := s.handler.channel ++ chunk } }
      else none
    | _ => none
  | .unlock =>
    match s.mutex with
    | some (_, []) => some { s with mutex := none }
    | _ => none
  | .read => s.handler.read.map fun handler => { s with handler }

end Threads

/-! ## What the channel has in it -/

/-- The handler did what the command asks for. -/
def Performs : Done → Command → Prop
  | .eventOnce handle c tv, .connection handle' c' tv' => handle = handle' ∧ c = c' ∧ tv = tv'
  | .eventAdd arg _, .listener arg' => arg = arg'
  | _, _ => False

/-- The handler is between two fields of the stream, and these are the ones that it did not read. -/
inductive Reads : Reader → List Done → List Command → List Str → Prop
  | waiting {done : List Done} {performed : List Command} (left : List Command)
      (h : List.Forall₂ Performs done performed) :
      Reads .waiting done (performed ++ left) (left.flatMap Command.chunks)
  | atLoop (tv : Str) {done : List Done} {performed : List Command} (left : List Command)
      (h : List.Forall₂ Performs done performed) :
      Reads (.atLoop tv) done (performed ++ left) (left.flatMap Command.chunks)
  | fields (tv : Str) {cmd : Byte} {c : Command} {got rest : List Str} {done : List Done} {performed : List Command}
      (left : List Command) (h : List.Forall₂ Performs done performed) (hc : c.chunks = [cmd] :: (got ++ rest))
      (hr : c ≠ .release) :
      Reads (.fields cmd got (rest.map List.length) tv) done (performed ++ c :: left)
        (rest ++ left.flatMap Command.chunks)
  | returned {done : List Done} {performed : List Command} (left : List Command)
      (h : List.Forall₂ Performs done performed) :
      Reads .returned done (performed ++ .release :: left) (left.flatMap Command.chunks)

/-- **The stream is never out of step.** What was written and not read are the first of the fields that are left,
and the others are still to be written. -/
def InStep (s : Handler) (order : List Command) (unwritten : List Str) : Prop :=
  ∃ written, s.channel = written.flatten ∧ Reads s.reader s.done order (written ++ unwritten)

theorem chunk_length {c : Command} {chunk : Str} (h : chunk ∈ c.chunks) : 0 < chunk.length ∧ chunk.length ≤ 16 := by
  cases c with
  | connection handle c tv =>
    have h4 := handle.2
    have h8 := c.2
    have h16 := tv.2
    simp only [Command.chunks, List.mem_cons, List.not_mem_nil, or_false] at h
    rcases h with rfl | rfl | rfl | rfl <;> simp [h4, h8, h16]
  | listener arg =>
    have h8 := arg.2
    simp only [Command.chunks, List.mem_cons, List.not_mem_nil, or_false] at h
    rcases h with rfl | rfl <;> simp [h8]
  | release =>
    rw [List.mem_singleton.mp h]
    simp

theorem left_length {left : List Command} {chunk : Str} (h : chunk ∈ left.flatMap Command.chunks) :
    0 < chunk.length ∧ chunk.length ≤ 16 := by
  obtain ⟨c, -, hc⟩ := List.mem_flatMap.mp h
  exact chunk_length hc

theorem Reads.length {reader : Reader} {done : List Done} {order : List Command} {chunks : List Str} {chunk : Str}
    (h : Reads reader done order chunks) (hchunk : chunk ∈ chunks) : 0 < chunk.length ∧ chunk.length ≤ 16 := by
  cases h with
  | waiting left => exact left_length hchunk
  | atLoop tv left => exact left_length hchunk
  | fields tv left _ hc _ =>
    rcases List.mem_append.mp hchunk with hrest | hleft
    · exact chunk_length (hc ▸ List.mem_cons_of_mem _ (List.mem_append_right _ hrest))
    · exact left_length hleft
  | returned left => exact left_length hchunk

/-- A command is put behind the others. -/
theorem Reads.append {reader : Reader} {done : List Done} {order : List Command} {chunks : List Str}
    (h : Reads reader done order chunks) (c : Command) : Reads reader done (order ++ [c]) (chunks ++ c.chunks) := by
  have hmore : ∀ left : List Command, left.flatMap Command.chunks ++ c.chunks =
      (left ++ [c]).flatMap Command.chunks := by
    intro left
    rw [List.flatMap_append, List.flatMap_singleton]
  cases h with
  | waiting left h =>
    rw [hmore, List.append_assoc]
    exact .waiting _ h
  | atLoop tv left h =>
    rw [hmore, List.append_assoc]
    exact .atLoop tv _ h
  | fields tv left h hc hr =>
    rw [List.append_assoc (_ : List Str), hmore, List.append_assoc, List.cons_append]
    exact .fields tv _ h hc hr
  | returned left h =>
    rw [hmore, List.append_assoc]
    exact .returned _ h

/-- What was written and not read, when something was. -/
theorem written_cons {written : List Str} (hlength : ∀ chunk ∈ written, 0 < chunk.length)
    (hne : written.flatten ≠ []) : ∃ chunk more, written = chunk :: more ∧ chunk ≠ [] := by
  cases written with
  | nil => exact absurd rfl hne
  | cons chunk more => exact ⟨chunk, more, rfl, List.ne_nil_of_length_pos (hlength chunk List.mem_cons_self)⟩

theorem written_nil {reader : Reader} {done : List Done} {order : List Command} {written unwritten : List Str}
    (hreads : Reads reader done order (written ++ unwritten)) (h : written.flatten = []) : written = [] := by
  cases written with
  | nil => rfl
  | cons chunk more =>
    have hpos := (hreads.length (List.mem_append_left _ List.mem_cons_self)).1
    rw [(List.append_eq_nil_iff.mp h).1] at hpos
    exact absurd hpos (lt_irrefl 0)

/-! ## The steps keep it -/

theorem performs_perform {cmd : Byte} {c : Command} {got : List Str} (hc : c.chunks = [cmd] :: got) (tv : Str)
    (hr : c ≠ .release) : ∃ d, (perform cmd got tv).1 = [d] ∧ Performs d c := by
  cases c with
  | connection handle c tv' =>
    obtain ⟨hcmd, rfl⟩ := List.cons.inj hc
    obtain rfl := (List.cons.inj hcmd).1
    exact ⟨_, rfl, rfl, rfl, rfl⟩
  | listener arg =>
    obtain ⟨hcmd, rfl⟩ := List.cons.inj hc
    obtain rfl := (List.cons.inj hcmd).1
    exact ⟨_, rfl, rfl⟩
  | release => exact absurd rfl hr

theorem begin_chunks {cmd : Byte} {c : Command} {fields : List Str} (hc : c.chunks = [cmd] :: fields) (tv : Str) :
    begin cmd tv = if c = .release then .returned else .fields cmd [] (fields.map List.length) tv := by
  cases c with
  | connection handle c tv' =>
    obtain ⟨hcmd, rfl⟩ := List.cons.inj hc
    obtain rfl := (List.cons.inj hcmd).1
    simp [begin, handle.2, c.2, tv'.2]
  | listener arg =>
    obtain ⟨hcmd, rfl⟩ := List.cons.inj hc
    obtain rfl := (List.cons.inj hcmd).1
    rw [if_neg (by simp), begin, if_neg (by decide), if_pos rfl, List.map_singleton, arg.2]
  | release =>
    obtain ⟨hcmd, -⟩ := List.cons.inj hc
    obtain rfl := (List.cons.inj hcmd).1
    rfl

theorem exists_chunks (c : Command) : ∃ cmd fields, c.chunks = [cmd] :: fields := by
  cases c <;> exact ⟨_, _, rfl⟩

/-- **The handler reads a command by its fields**, one write after the other. -/
theorem InStep.read {s s' : Handler} {order : List Command} {unwritten : List Str} (hs : InStep s order unwritten)
    (h : s.read = some s') : InStep s' order unwritten := by
  obtain ⟨written, hchannel, hreads⟩ := hs
  have hlength : ∀ chunk ∈ written, 0 < chunk.length := fun chunk hchunk =>
    (hreads.length (List.mem_append_left _ hchunk)).1
  obtain ⟨channel, reader, done⟩ := s
  dsimp only at hchannel hreads
  subst hchannel
  generalize hall : written ++ unwritten = all at hreads
  unfold Handler.read at h
  cases hreads with
  | waiting left hdone =>
    dsimp only at h
    split_ifs at h
    cases h
    exact ⟨written, rfl, hall ▸ .atLoop tenSeconds left hdone⟩
  | atLoop tv left hdone =>
    by_cases hnil : written.flatten = []
    · simp only [hnil] at h
      cases h
      exact ⟨written, hnil.symm, hall ▸ .waiting left hdone⟩
    · obtain ⟨chunk, more, rfl, -⟩ := written_cons hlength hnil
      cases left with
      | nil => cases hall
      | cons c left =>
        obtain ⟨cmd, fields, hc⟩ := exists_chunks c
        rw [List.flatMap_cons, hc, List.cons_append, List.cons_append] at hall
        obtain ⟨rfl, hmore⟩ := List.cons.inj hall
        cases h
        refine ⟨more, rfl, ?_⟩
        rw [begin_chunks hc, hmore]
        split_ifs with hr
        · subst hr
          obtain ⟨-, rfl⟩ := List.cons.inj hc
          exact .returned left hdone
        · exact @Reads.fields tv _ _ [] _ _ _ left hdone hc hr
  | fields tv left hdone hc hr =>
    rename_i cmd c got rest performed
    cases rest with
    | nil =>
      rw [List.append_nil] at hc
      obtain ⟨d, hd, hperforms⟩ := performs_perform hc tv hr
      rw [List.map_nil] at h
      obtain rfl := Option.some_inj.mp h
      refine ⟨written, rfl, ?_⟩
      have hmore : List.Forall₂ Performs (done ++ [d]) (performed ++ [c]) :=
        List.rel_append hdone (.cons hperforms .nil)
      rw [hall, hd, List.nil_append, List.append_cons performed]
      exact .atLoop _ left hmore
    | cons field rest =>
      rw [List.map_cons] at h
      dsimp only at h
      split_ifs at h with hnil
      cases h
      obtain ⟨chunk, more, rfl, -⟩ := written_cons hlength hnil
      rw [List.cons_append, List.cons_append] at hall
      obtain ⟨rfl, hmore⟩ := List.cons.inj hall
      refine ⟨more, ?_, ?_⟩
      · rw [List.flatten_cons, List.drop_left]
      · rw [List.flatten_cons, List.take_left, hmore]
        exact .fields tv left hdone (by rw [hc, List.append_assoc]; rfl) hr
  | returned left hdone => cases h

section Runs

variable {Thread : Type} [DecidableEq Thread] {capacity : Nat}

/-- **What every step keeps.** -/
theorem inStep_step {s s' : State Thread} {e : Event Thread} (hs : InStep s.handler s.order s.unwritten)
    (h : step capacity s e = some s') : InStep s'.handler s'.order s'.unwritten := by
  cases e with
  | call t c =>
    unfold step at h
    dsimp only at h
    split_ifs at h
    cases h
    exact hs
  | lock t =>
    unfold step at h
    dsimp only at h
    split at h
    · rename_i c hcall hfree
      cases h
      obtain ⟨written, hchannel, hreads⟩ := hs
      have hnone : s.unwritten = [] := by
        unfold State.unwritten
        rw [hfree]
        rfl
      rw [hnone, List.append_nil] at hreads
      exact ⟨written, hchannel, hreads.append c⟩
    · cases h
  | write =>
    unfold step at h
    dsimp only at h
    split at h
    · rename_i t chunk chunks howner
      split_ifs at h
      cases h
      obtain ⟨written, hchannel, hreads⟩ := hs
      have hchunks : s.unwritten = chunk :: chunks := by
        unfold State.unwritten
        rw [howner]
        rfl
      refine ⟨written ++ [chunk], ?_, ?_⟩
      · rw [List.flatten_append, List.flatten_singleton, hchannel]
      · rw [hchunks, List.append_cons] at hreads
        exact hreads
    · cases h
  | unlock =>
    unfold step at h
    dsimp only at h
    split at h
    · rename_i t howner
      cases h
      have hnone : s.unwritten = [] := by
        unfold State.unwritten
        rw [howner]
        rfl
      rw [hnone] at hs
      exact hs
    · cases h
  | read =>
    obtain ⟨handler, hread, rfl⟩ := Option.map_eq_some_iff.mp h
    exact hs.read hread

theorem inStep_run {events : List (Event Thread)} {s : State Thread}
    (h : Safety.run (step capacity) events State.start = some s) : InStep s.handler s.order s.unwritten :=
  @Safety.run_keeps _ _ _ (fun s : State Thread => InStep s.handler s.order s.unwritten) _ _ _
    (fun _ _ _ hs hstep => inStep_step hs hstep) ⟨[], rfl, .waiting [] List.Forall₂.nil⟩ h

/-- What `Reads` says about the order. -/
theorem Reads.order_eq {reader : Reader} {done : List Done} {order : List Command} {chunks : List Str}
    (h : Reads reader done order chunks) : ∃ performed left, order = performed ++ left ∧
      List.Forall₂ Performs done performed ∧ (reader = .waiting → chunks = [] → left = []) ∧
        (reader = .returned → ∃ later, left = .release :: later) := by
  have hnil : ∀ left : List Command, left.flatMap Command.chunks = [] → left = [] := by
    intro left h
    cases left with
    | nil => rfl
    | cons c left =>
      obtain ⟨cmd, fields, hc⟩ := exists_chunks c
      rw [List.flatMap_cons, hc] at h
      cases h
  cases h with
  | waiting left h => exact ⟨_, left, rfl, h, fun _ => hnil left, fun h => by cases h⟩
  | atLoop tv left h => exact ⟨_, left, rfl, h, fun h => (by cases h), fun h => by cases h⟩
  | fields tv left h => exact ⟨_, _, rfl, h, fun h => (by cases h), fun h => by cases h⟩
  | returned left h => exact ⟨_, _, rfl, h, fun h => (by cases h), fun _ => ⟨left, rfl⟩⟩

/-- A field that the handler reads next is the first one left. -/
theorem Reads.first {reader : Reader} {done : List Done} {order : List Command} {chunks : List Str}
    (h : Reads reader done order chunks) {cmd : Byte} {got : List Str} {n : Nat} {sizes : List Nat} {tv : Str}
    (hreader : reader = .fields cmd got (n :: sizes) tv) :
    ∃ chunk more, chunks = chunk :: more ∧ chunk.length = n := by
  cases h with
  | fields tv left h hc hr =>
    rename_i cmd' c got' rest performed
    injection hreader with _ _ hsizes _
    cases rest with
    | nil => cases hsizes
    | cons chunk rest => exact ⟨chunk, _, rfl, (List.cons.inj hsizes).1⟩
  | waiting left h => cases hreader
  | atLoop tv left h => cases hreader
  | returned left h => cases hreader

/-- **Every command is performed once, whole and in its turn.** However the threads and the handler take their
steps, what the handler has done are the first of the commands in the order in which their threads got the mutex.
When nothing is on its way and the handler waits for its event, these are all of them, and once it has come back,
a `release` is next. -/
theorem commands_performed {events : List (Event Thread)} {s : State Thread}
    (h : Safety.run (step capacity) events State.start = some s) :
    ∃ performed left, s.order = performed ++ left ∧ List.Forall₂ Performs s.handler.done performed ∧
      (s.handler.reader = .waiting → s.handler.channel = [] → s.mutex = none → left = []) ∧
      (s.handler.reader = .returned → ∃ later, left = .release :: later) := by
  obtain ⟨written, hchannel, hreads⟩ := inStep_run h
  obtain ⟨performed, left, horder, hdone, hwaiting, hreturned⟩ := hreads.order_eq
  refine ⟨performed, left, horder, hdone, fun hreader hempty hfree => hwaiting hreader ?_, hreturned⟩
  have hnone : s.unwritten = [] := by
    unfold State.unwritten
    rw [hfree]
    rfl
  rw [written_nil hreads (hchannel.symm.trans hempty), hnone]
  rfl

/-- **A command that has begun is ended.** When the handler waits for a field that is not there, the thread that
owns the mutex can write it, and then all of it is there. -/
theorem field_comes {events : List (Event Thread)} {s : State Thread} (hcapacity : 16 ≤ capacity)
    (h : Safety.run (step capacity) events State.start = some s) {cmd : Byte} {got : List Str} {n : Nat}
    {sizes : List Nat} {tv : Str} (hreader : s.handler.reader = .fields cmd got (n :: sizes) tv)
    (hempty : s.handler.channel = []) :
    ∃ s', step capacity s .write = some s' ∧ s'.handler.channel.length = n := by
  obtain ⟨written, hchannel, hreads⟩ := inStep_run h
  rw [written_nil hreads (hchannel.symm.trans hempty), List.nil_append] at hreads
  obtain ⟨chunk, chunks, hchunks, hn⟩ := hreads.first hreader
  have hle := (hreads.length (hchunks ▸ List.mem_cons_self)).2
  unfold State.unwritten at hchunks
  cases howner : s.mutex with
  | none =>
    rw [howner] at hchunks
    cases hchunks
  | some owner =>
    obtain ⟨t, l⟩ := owner
    rw [howner, Option.map_some, Option.getD_some] at hchunks
    dsimp only at hchunks
    subst hchunks
    unfold step
    dsimp only
    rw [howner]
    dsimp only
    rw [hempty, List.length_nil, Nat.zero_add, if_pos (hle.trans hcapacity)]
    exact ⟨_, rfl, hn⟩

/-! ## The handler gets through -/

/-- How much the handler still has before it. -/
def Handler.work (s : Handler) : Nat :=
  6 * s.channel.length +
    match s.reader with
    | .waiting => 1
    | .fields _ _ sizes _ => 1 + sizes.length
    | _ => 0

/-- All was read. -/
def Handler.Through (s : Handler) : Prop := s.reader = .waiting ∧ s.channel = []

/-- **While nobody writes, the handler goes on** until it is through. -/
theorem read_goes {s : Handler} {order : List Command} (hs : InStep s order []) (hrelease : .release ∉ order) :
    s.Through ∨ ∃ s', s.read = some s' ∧ (s'.Through ∨ s'.work < s.work) := by
  obtain ⟨written, hchannel, hreads⟩ := hs
  rw [List.append_nil] at hreads
  obtain ⟨channel, reader, done⟩ := s
  dsimp only at hchannel hreads
  cases hreader : reader with
  | waiting =>
    by_cases hnil : channel = []
    · exact Or.inl ⟨rfl, hnil⟩
    · refine Or.inr ⟨_, if_neg hnil, Or.inr ?_⟩
      simp [Handler.work]
  | atLoop tv =>
    cases channel with
    | nil => exact Or.inr ⟨_, rfl, Or.inl ⟨rfl, rfl⟩⟩
    | cons cmd rest =>
      refine Or.inr ⟨_, rfl, Or.inr ?_⟩
      unfold begin Handler.work
      split_ifs <;> simp <;> omega
  | fields cmd got sizes tv =>
    cases sizes with
    | nil =>
      refine Or.inr ⟨_, rfl, Or.inr ?_⟩
      simp [Handler.work]
    | cons n sizes =>
      obtain ⟨chunk, more, rfl, hn⟩ := hreads.first hreader
      have hpos := (hreads.length List.mem_cons_self).1
      have hle : n ≤ channel.length := by
        rw [hchannel, List.flatten_cons, List.length_append]
        omega
      have hne : channel ≠ [] := List.ne_nil_of_length_pos (by omega)
      refine Or.inr ⟨_, if_neg hne, Or.inr ?_⟩
      simp only [Handler.work, List.length_drop, List.length_cons]
      omega
  | returned =>
    obtain ⟨performed, left, rfl, -, -, hlater⟩ := hreads.order_eq
    obtain ⟨later, rfl⟩ := hlater hreader
    exact absurd (List.mem_append_right performed List.mem_cons_self) hrelease

/-- **Nothing is left behind.** From any state in which nobody owns the mutex, steps of the handler alone bring it
to where it has performed every command, as long as none was a `release`. -/
theorem commands_drain {events : List (Event Thread)} {s : State Thread}
    (h : Safety.run (step capacity) events State.start = some s) (hfree : s.mutex = none)
    (hrelease : .release ∉ s.order) :
    ∃ n s', Safety.run (step capacity) (List.replicate n .read) s = some s' ∧
      List.Forall₂ Performs s'.handler.done s.order := by
  have hinv := inStep_run h
  have hunwritten : s.unwritten = [] := by
    unfold State.unwritten
    rw [hfree]
    rfl
  rw [hunwritten] at hinv
  clear h
  induction hwork : s.handler.work using Nat.strong_induction_on generalizing s with
  | _ work ih =>
    have hthrough : ∀ handler : Handler, InStep handler s.order [] → handler.Through →
        List.Forall₂ Performs handler.done s.order := by
      rintro handler ⟨written, hchannel, hreads⟩ ⟨hreader, hempty⟩
      obtain ⟨performed, left, horder, hdone, hwaiting, -⟩ := hreads.order_eq
      rw [written_nil hreads (hchannel.symm.trans hempty)] at hwaiting
      rw [horder, hwaiting hreader rfl, List.append_nil]
      exact hdone
    rcases read_goes hinv hrelease with hend | ⟨handler, hread, hnext⟩
    · exact ⟨0, s, rfl, hthrough s.handler hinv hend⟩
    · have hstep : step capacity s .read = some { s with handler } := by
        unfold step
        dsimp only
        rw [hread]
        rfl
      have hinv' := hinv.read hread
      rcases hnext with hend | hless
      · refine ⟨1, { s with handler }, ?_, hthrough handler hinv' hend⟩
        exact Option.bind_eq_some_iff.mpr ⟨_, hstep, rfl⟩
      · obtain ⟨n, s', hrun, hdone⟩ := ih handler.work (hwork ▸ hless) (s := { s with handler }) hfree hrelease hinv'
          hunwritten rfl
        refine ⟨n + 1, s', ?_, hdone⟩
        exact Option.bind_eq_some_iff.mpr ⟨_, hstep, hrun⟩

end Runs

/-- One thread asks for a listener. -/
def asking : List (Event Unit) := [.call () (.listener ⟨List.replicate 8 1, rfl⟩), .lock (), .write]

def asked (events : List (Event Unit)) : State Unit := (Safety.run (step 16) (asking ++ events) State.start).getD .start

theorem commands_performed_listener : ∃ performed left, (asked [.write, .unlock]).order = performed ++ left ∧
    List.Forall₂ Performs (asked [.write, .unlock]).handler.done performed ∧
      ((asked [.write, .unlock]).handler.reader = .waiting → (asked [.write, .unlock]).handler.channel = [] →
        (asked [.write, .unlock]).mutex = none → left = []) ∧
        ((asked [.write, .unlock]).handler.reader = .returned → ∃ later, left = .release :: later) :=
  @commands_performed _ _ 16 (asking ++ [.write, .unlock]) _ rfl

theorem field_comes_listener :
    ∃ s', step 16 (asked [.read, .read]) .write = some s' ∧ s'.handler.channel.length = 8 :=
  @field_comes _ _ _ (asking ++ [.read, .read]) _ (le_refl 16) rfl (ch 'l') [] _ [] tenSeconds rfl rfl

theorem commands_drain_listener :
    ∃ n s', Safety.run (step 16) (List.replicate n .read) (asked [.write, .unlock]) = some s' ∧
      List.Forall₂ Performs s'.handler.done (asked [.write, .unlock]).order :=
  @commands_drain _ _ 16 (asking ++ [.write, .unlock]) _ rfl rfl (by decide)

end MyServer.EventLoop
