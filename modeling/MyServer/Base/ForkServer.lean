import MyServer.Http.CgiBlock
import MyServer.Lib.Fragments

/-!
# Processes and the fork server (process.cpp, fork_server.cpp)

A process that was forked early starts the programs. What it is to start comes over a socket, as integers and as
strings with their length in front. The arguments are one string there, and the environment a block of entries.
-/

namespace MyServer.Fork

/-- Why no process is started as it was asked for: a byte was used that is outside of its buffer or was never
written, or the child calls `exit (1)`. -/
inductive Stop where
  | undefined
  | exits
deriving DecidableEq

/-! ## The argument vector -/

/-- What the loop of `generateArgList` is in: its own turns, the character behind a quote, the inner loop. -/
inductive Mode where
  | outer
  | opened
  | quoted
deriving DecidableEq

/-- The loop over `additionalArgs`, where `pending` has the characters from `start` on. Without room for one more
entry it is left, and the NULL that ends the vector is written behind the vector. -/
def argLoop (size : Nat) : Str → Mode → Str → List Str → Except Stop (List Str)
  | [], .outer, pending, args =>
    let args := if args.length < size ∧ pending ≠ [] then args ++ [cstr pending] else args
    if args.length < size then .ok args else .error .undefined
  | [], .opened, _, _ => .error .undefined
  | [], .quoted, _, _ => .error .exits
  | c :: rest, .outer, pending, args =>
    if c = ch '"' then argLoop size rest .opened [] args
    else if c = ch ' ' then
      if pending.length ≤ 1 then argLoop size rest .outer (pending ++ [c]) args
      -- the loop over more spaces finds the NUL that was just written, and ends at once
      else if args.length < size then argLoop size rest .outer [] (args ++ [cstr pending])
      else .error .undefined
    else argLoop size rest .outer (pending ++ [c]) args
  -- `i` is raised twice before a character is compared
  | c :: rest, .opened, _, args => argLoop size rest .quoted [c] args
  | c :: rest, .quoted, pending, args =>
    if c = ch '"' then
      if args.length < size then argLoop size rest .outer [] (args ++ [cstr pending]) else .error .undefined
    else argLoop size rest .quoted (pending ++ [c]) args

section

variable {size : Nat} {c : Byte} {rest pending : Str} {args : List Str}

theorem argLoop_end : argLoop size [] .outer pending args =
    if (if args.length < size ∧ pending ≠ [] then args ++ [cstr pending] else args).length < size then
      .ok (if args.length < size ∧ pending ≠ [] then args ++ [cstr pending] else args) else .error .undefined := rfl

theorem argLoop_outer : argLoop size (c :: rest) .outer pending args =
    if c = ch '"' then argLoop size rest .opened [] args
    else if c = ch ' ' then
      if pending.length ≤ 1 then argLoop size rest .outer (pending ++ [c]) args
      else if args.length < size then argLoop size rest .outer [] (args ++ [cstr pending]) else .error .undefined
    else argLoop size rest .outer (pending ++ [c]) args := rfl

theorem argLoop_opened : argLoop size (c :: rest) .opened pending args = argLoop size rest .quoted [c] args := rfl

theorem argLoop_in : argLoop size (c :: rest) .quoted pending args =
    if c = ch '"' then
      if args.length < size then argLoop size rest .outer [] (args ++ [cstr pending]) else .error .undefined
    else argLoop size rest .quoted (pending ++ [c]) args := rfl

end

def generateArgList (size : Nat) (proc additionalArgs : Str) : Except Stop (List Str) :=
  argLoop size (additionalArgs.dropWhile (· = ch ' ')) .outer [] [proc]

/-- An argument as a command line has it. -/
structure Argument where
  quoted : Bool
  text : Str
  noQuote : ch '"' ∉ text
  noNul : (0 : Byte) ∉ text
  plain : quoted = false → ch ' ' ∉ text ∧ text ≠ []

def Argument.bytes (a : Argument) : Str := if a.quoted then ch '"' :: (a.text ++ [ch '"']) else a.text

def commandLine (l : List Argument) : Str := [ch ' '].intercalate (l.map Argument.bytes)

/-- An argument in quotes has to have a text. One without them has to have two characters unless it is the last,
and must not come behind one with quotes. -/
def Readable : Bool → List Argument → Prop
  | _, [] => True
  | afterQuoted, a :: l =>
    (if a.quoted then a.text ≠ [] else afterQuoted = false ∧ (l = [] ∨ 2 ≤ a.text.length)) ∧ Readable a.quoted l

section Arguments

variable {size : Nat} {rest : Str} {args r : List Str}

/-- **The entries stay.** -/
theorem prefix_of_argLoop {s : Str} {mode : Mode} {pending : Str} (h : argLoop size s mode pending args = .ok r) :
    args <+: r := by
  induction s generalizing mode pending args with
  | nil =>
    cases mode with
    | outer =>
      rw [argLoop_end] at h
      split_ifs at h with hpending
      · exact Except.ok.inj h ▸ List.prefix_append _ _
      · exact Except.ok.inj h ▸ List.prefix_refl _
    | opened => cases h
    | quoted => cases h
  | cons c s ih =>
    cases mode with
    | outer =>
      rw [argLoop_outer] at h
      split_ifs at h
      · exact ih h
      · exact ih h
      · exact (List.prefix_append _ _).trans (ih h)
      · exact ih h
    | opened => exact ih h
    | quoted =>
      rw [argLoop_in] at h
      split_ifs at h
      · exact (List.prefix_append _ _).trans (ih h)
      · exact ih h

/-- A text without quotes and spaces is read on. -/
theorem argLoop_text {text : Str} (hquote : ch '"' ∉ text) (hspace : ch ' ' ∉ text) (pending : Str) :
    argLoop size (text ++ rest) .outer pending args = argLoop size rest .outer (pending ++ text) args := by
  induction text generalizing pending with
  | nil => rw [List.nil_append, List.append_nil]
  | cons c text ih =>
    obtain ⟨hc, hquote⟩ := not_or.mp (mt List.mem_cons.mpr hquote)
    obtain ⟨hc', hspace⟩ := not_or.mp (mt List.mem_cons.mpr hspace)
    rw [List.cons_append, argLoop_outer, if_neg (Ne.symm hc), if_neg (Ne.symm hc'), ih hquote hspace, List.append_assoc,
      List.singleton_append]

theorem argLoop_inside {text : Str} (hquote : ch '"' ∉ text) (pending : Str) :
    argLoop size (text ++ ch '"' :: rest) .quoted pending args =
      if args.length < size then argLoop size rest .outer [] (args ++ [cstr (pending ++ text)])
      else .error .undefined := by
  induction text generalizing pending with
  | nil => rw [List.nil_append, List.append_nil, argLoop_in, if_pos rfl]
  | cons c text ih =>
    obtain ⟨hc, hquote⟩ := not_or.mp (mt List.mem_cons.mpr hquote)
    rw [List.cons_append, argLoop_in, if_neg (Ne.symm hc), ih hquote, List.append_assoc, List.singleton_append]

/-- **An argument in quotes** is an entry of its own. What stood in front of the quote is dropped. -/
theorem argLoop_quoted {a : Argument} (hquoted : a.quoted = true) (htext : a.text ≠ []) (pending : Str) :
    argLoop size (a.bytes ++ rest) .outer pending args =
      if args.length < size then argLoop size rest .outer [] (args ++ [a.text]) else .error .undefined := by
  obtain ⟨c, text, hcons⟩ := List.exists_cons_of_ne_nil htext
  have hquote := a.noQuote
  rw [hcons, List.mem_cons, not_or] at hquote
  have hbytes : a.bytes ++ rest = ch '"' :: c :: (text ++ ch '"' :: rest) := by
    unfold Argument.bytes
    rw [if_pos hquoted, hcons]
    simp
  rw [hbytes, argLoop_outer, if_pos rfl, argLoop_opened, argLoop_inside hquote.2, List.singleton_append, ← hcons,
    cstr_of_notMem a.noNul]

/-- The entry that two quotes without a text begin has a quote in it. -/
theorem argLoop_quote_inside {s pending : Str} (h : argLoop size s .quoted (ch '"' :: pending) args = .ok r) :
    ∃ entry, ch '"' ∈ entry ∧ args ++ [entry] <+: r := by
  induction s generalizing pending with
  | nil => cases h
  | cons c s ih =>
    rw [argLoop_in] at h
    split_ifs at h
    · refine ⟨_, ?_, prefix_of_argLoop h⟩
      unfold cstr
      rw [List.takeWhile_cons_of_pos (by decide)]
      exact List.mem_cons_self
    · exact ih h

theorem argLoop_empty {a : Argument} (hquoted : a.quoted = true) (htext : a.text = []) {pending : Str}
    (h : argLoop size (a.bytes ++ rest) .outer pending args = .ok r) :
    ∃ entry, ch '"' ∈ entry ∧ args ++ [entry] <+: r := by
  have hbytes : a.bytes ++ rest = ch '"' :: ch '"' :: rest := by
    unfold Argument.bytes
    rw [if_pos hquoted, htext]
    rfl
  rw [hbytes, argLoop_outer, if_pos rfl, argLoop_opened] at h
  exact argLoop_quote_inside h

/-- **An argument without quotes** at the end. -/
theorem argLoop_last {a : Argument} (hplain : a.quoted = false) {pending : Str} (hnul : (0 : Byte) ∉ pending) :
    argLoop size a.bytes .outer pending args =
      if args.length + 1 < size then .ok (args ++ [pending ++ a.text]) else .error .undefined := by
  obtain ⟨hspace, htext⟩ := a.plain hplain
  have hbytes : a.bytes = a.text ++ [] := by
    rw [Argument.bytes, if_neg (by rw [hplain]; exact Bool.false_ne_true), List.append_nil]
  have hne : pending ++ a.text ≠ [] := List.append_ne_nil_of_right_ne_nil _ htext
  have hcstr : cstr (pending ++ a.text) = pending ++ a.text :=
    cstr_of_notMem fun hmem => (List.mem_append.mp hmem).elim hnul a.noNul
  rw [hbytes, argLoop_text a.noQuote hspace, argLoop_end, hcstr]
  by_cases hroom : args.length < size
  · have hpush : args.length < size ∧ pending ++ a.text ≠ [] := ⟨hroom, hne⟩
    simp only [if_pos hpush, List.length_append, List.length_singleton]
  · have hnot : ¬(args.length < size ∧ pending ++ a.text ≠ []) := fun h => hroom h.1
    simp only [if_neg hnot, if_neg hroom]
    rw [if_neg (by omega)]

/-- An argument without quotes that a space follows. -/
theorem argLoop_plain {a : Argument} (hplain : a.quoted = false) {pending : Str} (hnul : (0 : Byte) ∉ pending) :
    argLoop size (a.bytes ++ ch ' ' :: rest) .outer pending args =
      if (pending ++ a.text).length ≤ 1 then argLoop size rest .outer (pending ++ a.text ++ [ch ' ']) args
      else if args.length < size then argLoop size rest .outer [] (args ++ [pending ++ a.text])
      else .error .undefined := by
  obtain ⟨hspace, -⟩ := a.plain hplain
  have hbytes : a.bytes = a.text := by
    rw [Argument.bytes, if_neg (by rw [hplain]; exact Bool.false_ne_true)]
  have hcstr : cstr (pending ++ a.text) = pending ++ a.text :=
    cstr_of_notMem fun hmem => (List.mem_append.mp hmem).elim hnul a.noNul
  rw [hbytes, argLoop_text a.noQuote hspace, argLoop_outer, if_neg (by decide), if_pos rfl, hcstr]

theorem argLoop_space (pending : Str) (hpending : pending.length ≤ 1) :
    argLoop size (ch ' ' :: rest) .outer pending args = argLoop size rest .outer (pending ++ [ch ' ']) args := by
  rw [argLoop_outer, if_neg (by decide), if_pos rfl, if_pos hpending]

theorem commandLine_cons (a : Argument) {l : List Argument} (hl : l ≠ []) :
    commandLine (a :: l) = a.bytes ++ ch ' ' :: commandLine l := by
  obtain ⟨b, l, rfl⟩ := List.exists_cons_of_ne_nil hl
  unfold commandLine
  rw [List.map_cons, List.map_cons, List.intercalate_cons_cons, List.append_assoc, List.singleton_append]

theorem commandLine_singleton (a : Argument) : commandLine [a] = a.bytes := by
  simp [commandLine]

theorem mem_drop_of_starts {entry : Str} (h : args ++ [entry] <+: r) : entry ∈ r.drop args.length := by
  obtain ⟨more, rfl⟩ := h
  rw [List.append_assoc, List.drop_left]
  exact List.mem_cons_self

/-- **No more entries than arguments**, as long as no quote is in an entry. -/
theorem length_of_argLoop {l : List Argument} (hl : l ≠ []) {pending : Str} (hnul : (0 : Byte) ∉ pending)
    (h : argLoop size (commandLine l) .outer pending args = .ok r)
    (hquote : ∀ entry ∈ r.drop args.length, ch '"' ∉ entry) : r.length ≤ args.length + l.length := by
  induction l generalizing pending args with
  | nil => exact absurd rfl hl
  | cons a l ih =>
    have hlater : ∀ text : Str, ∀ entry ∈ r.drop (args ++ [text]).length, ch '"' ∉ entry := by
      intro text entry hentry
      refine hquote entry ((List.drop_suffix_drop_left r ?_).subset hentry)
      rw [List.length_append]
      exact Nat.le_add_right _ _
    have hend : ∀ {text : Str}, argLoop size [] .outer [] (args ++ [text]) = .ok r → r.length ≤ args.length + 1 := by
      intro text hend
      simp only [argLoop_end, ne_eq, not_true_eq_false, and_false, if_false] at hend
      split_ifs at hend
      rw [← Except.ok.inj hend, List.length_append, List.length_singleton]
    rcases Bool.eq_false_or_eq_true a.quoted with hquoted | hplain
    · by_cases htext : a.text = []
      · have hempty : ∃ tail, commandLine (a :: l) = a.bytes ++ tail := by
          by_cases hnil : l = []
          · exact ⟨[], by rw [hnil, commandLine_singleton, List.append_nil]⟩
          · exact ⟨_, commandLine_cons a hnil⟩
        obtain ⟨tail, htail⟩ := hempty
        rw [htail] at h
        obtain ⟨entry, hmem, hprefix⟩ := argLoop_empty hquoted htext h
        exact absurd hmem (hquote entry (mem_drop_of_starts hprefix))
      · by_cases hnil : l = []
        · subst hnil
          rw [commandLine_singleton, ← List.append_nil a.bytes, argLoop_quoted hquoted htext] at h
          split_ifs at h
          exact hend h
        · rw [commandLine_cons a hnil, argLoop_quoted hquoted htext] at h
          split_ifs at h
          rw [argLoop_space [] (Nat.zero_le 1)] at h
          have hle := ih hnil (by decide) h (hlater a.text)
          rw [List.length_append] at hle
          simp only [List.length_cons, List.length_nil] at hle ⊢
          omega
    · by_cases hnil : l = []
      · subst hnil
        rw [commandLine_singleton, argLoop_last hplain hnul] at h
        split_ifs at h
        rw [← Except.ok.inj h, List.length_append]
        rfl
      · rw [commandLine_cons a hnil, argLoop_plain hplain hnul] at h
        split_ifs at h
        · have hnul' : (0 : Byte) ∉ pending ++ a.text ++ [ch ' '] := by
            simp only [List.mem_append, not_or]
            exact ⟨⟨hnul, a.noNul⟩, by decide⟩
          have hle := ih hnil hnul' h hquote
          rw [List.length_cons]
          omega
        · have hle := ih hnil List.not_mem_nil h (hlater (pending ++ a.text))
          rw [List.length_append] at hle
          simp only [List.length_cons, List.length_nil] at hle ⊢
          omega

/-- What `start` is at when an argument begins. -/
def between (afterQuoted : Bool) : Str := if afterQuoted then [ch ' '] else []

theorem zero_notMem_between (afterQuoted : Bool) : (0 : Byte) ∉ between afterQuoted := by
  cases afterQuoted <;> decide

theorem ne_of_starts {entry text : Str} {texts : List Str} (h : args ++ [entry] <+: args ++ text :: texts) :
    entry = text := by
  obtain ⟨more, hmore⟩ := h
  rw [List.append_assoc] at hmore
  exact (List.cons.inj (List.append_cancel_left hmore)).1

/-- **The entries are the arguments** exactly when these are readable and there is room for them. -/
theorem argLoop_iff {l : List Argument} (hl : l ≠ []) (afterQuoted : Bool) :
    argLoop size (commandLine l) .outer (between afterQuoted) args = .ok (args ++ l.map Argument.text) ↔
      Readable afterQuoted l ∧ args.length + l.length < size := by
  induction l generalizing afterQuoted args with
  | nil => exact absurd rfl hl
  | cons a l ih =>
    have hnext : (args ++ [a.text]) ++ l.map Argument.text = args ++ (a :: l).map Argument.text := by
      rw [List.append_assoc]
      rfl
    have hlength : (args ++ [a.text]).length + l.length = args.length + (a :: l).length := by
      rw [List.length_append, List.length_singleton, List.length_cons]
      omega
    rcases Bool.eq_false_or_eq_true a.quoted with hquoted | hplain
    · unfold Readable
      rw [if_pos hquoted, hquoted]
      by_cases htext : a.text = []
      · refine iff_of_false (fun h => ?_) fun h => h.1.1 htext
        have hempty : ∃ tail, commandLine (a :: l) = a.bytes ++ tail := by
          by_cases hnil : l = []
          · exact ⟨[], by rw [hnil, commandLine_singleton, List.append_nil]⟩
          · exact ⟨_, commandLine_cons a hnil⟩
        obtain ⟨tail, htail⟩ := hempty
        rw [htail] at h
        obtain ⟨entry, hmem, hprefix⟩ := argLoop_empty hquoted htext h
        rw [ne_of_starts hprefix] at hmem
        exact a.noQuote hmem
      · rw [and_iff_right htext]
        by_cases hnil : l = []
        · subst hnil
          rw [commandLine_singleton, ← List.append_nil a.bytes, argLoop_quoted hquoted htext]
          simp only [argLoop_end, ne_eq, not_true_eq_false, and_false, if_false, Readable, true_and, List.length_append,
            List.length_singleton, List.map_cons, List.map_nil]
          split_ifs with hroom hmore
          · exact iff_of_true rfl hmore
          · exact iff_of_false (fun h => by cases h) hmore
          · exact iff_of_false (fun h => by cases h) (by omega)
        · rw [commandLine_cons a hnil, argLoop_quoted hquoted htext]
          by_cases hroom : args.length < size
          · rw [if_pos hroom, argLoop_space [] (Nat.zero_le 1), ← hnext, ← hlength]
            exact ih hnil true
          · rw [if_neg hroom]
            refine iff_of_false (fun h => by cases h) fun h => ?_
            have := h.2
            omega
    · have hroom : ∀ {text : Str} {r : List Str}, (if args.length < size then
          argLoop size (commandLine l) .outer [] (args ++ [text]) else .error .undefined) = .ok r →
          args.length < size ∧ args ++ [text] <+: r := by
        intro text r h
        split_ifs at h with hroom
        exact ⟨hroom, prefix_of_argLoop h⟩
      have hspaced : ∀ h : ch ' ' :: a.text = a.text, False := fun h => by
        have := congrArg List.length h
        rw [List.length_cons] at this
        omega
      unfold Readable
      rw [hplain, if_neg Bool.false_ne_true]
      by_cases hnil : l = []
      · subst hnil
        rw [commandLine_singleton, argLoop_last hplain (zero_notMem_between afterQuoted)]
        cases afterQuoted with
        | false =>
          simp only [between, Bool.false_eq_true, if_false, List.nil_append, List.map_cons, List.map_nil, Readable,
            true_or, and_true, true_and, List.length_singleton]
          split_ifs with hroom
          · exact iff_of_true rfl hroom
          · exact iff_of_false (fun h => by cases h) hroom
        | true =>
          refine iff_of_false (fun h => ?_) fun h => absurd h.1.1.1.symm Bool.false_ne_true
          split_ifs at h
          have hentry := List.append_cancel_left (Except.ok.inj h)
          exact hspaced (List.cons.inj hentry).1
      · rw [commandLine_cons a hnil, argLoop_plain hplain (zero_notMem_between afterQuoted)]
        cases afterQuoted with
        | true =>
          refine iff_of_false (fun h => ?_) fun h => absurd h.1.1.1.symm Bool.false_ne_true
          have hlong : ¬(between true ++ a.text).length ≤ 1 := by
            have := List.length_pos_iff.mpr (a.plain hplain).2
            simp only [between, if_true, List.length_append, List.length_singleton]
            omega
          rw [if_neg hlong] at h
          exact hspaced (ne_of_starts (hroom h).2)
        | false =>
          simp only [between, Bool.false_eq_true, if_false, List.nil_append, true_and, hnil, false_or]
          by_cases hshort : a.text.length ≤ 1
          · -- the argument and the next one become one entry, or it is dropped: the entries are too few
            rw [if_pos hshort]
            refine iff_of_false (fun h => ?_) fun h => by omega
            have hnul : (0 : Byte) ∉ a.text ++ [ch ' '] := by
              simp only [List.mem_append, not_or]
              exact ⟨a.noNul, by decide⟩
            have hle := length_of_argLoop hnil hnul h (by
              rw [List.drop_left]
              intro entry hentry
              obtain ⟨b, -, rfl⟩ := List.mem_map.mp hentry
              exact b.noQuote)
            simp only [List.length_append, List.length_map, List.length_cons] at hle
            omega
          · rw [if_neg hshort, and_iff_right (show 2 ≤ a.text.length by omega)]
            by_cases hsize : args.length < size
            · rw [if_pos hsize, ← hnext, ← hlength]
              exact ih hnil false
            · rw [if_neg hsize]
              refine iff_of_false (fun h => by cases h) fun h => ?_
              have := h.2
              omega

end Arguments

theorem dropWhile_commandLine (l : List Argument) : (commandLine l).dropWhile (· = ch ' ') = commandLine l := by
  cases l with
  | nil => rfl
  | cons a l =>
    have hhead : ∃ c s, commandLine (a :: l) = c :: s ∧ c ≠ ch ' ' := by
      have hbytes : ∃ c s, a.bytes = c :: s ∧ c ≠ ch ' ' := by
        unfold Argument.bytes
        split_ifs with hquoted
        · exact ⟨_, _, rfl, by decide⟩
        · obtain ⟨hspace, htext⟩ := a.plain (Bool.eq_false_iff.mpr hquoted)
          obtain ⟨c, s, hcons⟩ := List.exists_cons_of_ne_nil htext
          exact ⟨c, s, hcons, fun h => hspace (by rw [hcons, h]; exact List.mem_cons_self)⟩
      obtain ⟨c, s, hcons, hc⟩ := hbytes
      by_cases hnil : l = []
      · exact ⟨c, s, by rw [hnil, commandLine_singleton, hcons], hc⟩
      · exact ⟨c, _, by rw [commandLine_cons a hnil, hcons, List.cons_append], hc⟩
    obtain ⟨c, s, hcons, hc⟩ := hhead
    rw [hcons, List.dropWhile_cons_of_neg (by simpa using hc)]

/-- **The argument vector** is what the command line says exactly when there is room for it and for its end, no
text in quotes is empty, and each argument without quotes stands in front of those with quotes and has two
characters unless it is the last one. -/
theorem generateArgList_iff (size : Nat) (proc : Str) (l : List Argument) :
    generateArgList size proc (commandLine l) = .ok (proc :: l.map Argument.text) ↔
      Readable false l ∧ l.length + 1 < size := by
  by_cases hnil : l = []
  · subst hnil
    simp [generateArgList, commandLine, argLoop_end, Readable]
  · have hiff := @argLoop_iff size [proc] l hnil false
    rw [List.length_singleton, Nat.add_comm] at hiff
    unfold generateArgList
    rw [dropWhile_commandLine]
    exact hiff

-- the first argument is too short, and the second one does not stand in front of those in quotes
example : generateArgList 100 (ascii "/c") (ascii "a bc") = .ok [ascii "/c", ascii "a bc"] := by decide

example : generateArgList 100 (ascii "/c") (ascii "\"a\" bc") = .ok [ascii "/c", ascii "a", ascii " bc"] := by decide

/-! ## The environment -/

/-- `generateEnvString` from `envString + i` on. An entry is a pointer into the memory. -/
def envLoop : Nat → Str → Except Stop (List Str)
  | 0, _ => .error .exits
  | _ + 1, [] => .error .undefined
  | room + 1, c :: memory =>
    if c = 0 then .ok []
    -- `index == size` behind the last place: `exec` exits
    else if room = 0 then .error .exits
    else
      match memory.dropWhile (· ≠ 0) with
      | [] => .error .undefined
      | _ :: rest => (envLoop room rest).map fun envp => cstr (c :: memory) :: envp

def generateEnvString (size : Nat) : Option Str → Except Stop (List Str)
  | none => .ok []
  | some memory => envLoop size memory

/-- `for (len = 0; env[len] != '\0' || env[len + 1] != '\0'; len++)`, from a place on. -/
def envLength : Str → Option Nat
  | [] | [_] => none
  | a :: b :: memory => if a = 0 ∧ b = 0 then some 0 else (envLength (b :: memory)).map (· + 1)

/-- What `executeProcess` sends of the environment. -/
def sentEnv : Option Str → Option Str
  | none => some []
  | some memory => (envLength memory).map memory.take

/-- The environment in the fork server: a buffer with a NUL behind what came, or NULL. -/
def receivedEnv (env : Str) : Option Str := if (env ++ [0]).head? = some 0 then none else some (env ++ [0])

open Cgi

def entryText (v : Variable) : Str := v.name ++ ch '=' :: v.value

theorem envLoop_cons {room : Nat} {text rest : Str} (htext : (0 : Byte) ∉ text) (hne : text ≠ []) :
    envLoop (room + 1) (text ++ 0 :: rest) =
      if room = 0 then .error .exits else (envLoop room rest).map fun envp => text :: envp := by
  obtain ⟨c, s, rfl⟩ := List.exists_cons_of_ne_nil hne
  obtain ⟨hc, hs⟩ := not_or.mp (mt List.mem_cons.mpr htext)
  have hdrop : (s ++ 0 :: rest).dropWhile (· ≠ 0) = 0 :: rest := by
    rw [List.dropWhile_append_of_pos (fun b hb => by simpa using fun h : b = 0 => hs (h ▸ hb))]
    rfl
  have hcstr : cstr (c :: (s ++ 0 :: rest)) = c :: s := by
    rw [← List.cons_append, cstr_append htext]
    simp [cstr]
  rw [List.cons_append, envLoop, if_neg (Ne.symm hc), hdrop, hcstr]

theorem bytes_eq_entryText (v : Variable) (rest : Str) : v.bytes ++ rest = entryText v ++ 0 :: rest := by
  simp [Variable.bytes, entryText]

theorem entryText_spec (v : Variable) : (0 : Byte) ∉ entryText v ∧ entryText v ≠ [] := by
  unfold entryText
  constructor
  · rw [List.mem_append, List.mem_cons, not_or, not_or]
    exact ⟨v.name_nul, by decide, v.value_nul⟩
  · exact List.append_ne_nil_of_right_ne_nil _ (List.cons_ne_nil _ _)

/-- Up to the empty entry at the end, or to the end of the memory when there is none. -/
theorem envLoop_entries (vars : List Variable) (size : Nat) (rest : Str) :
    envLoop size (entries vars ++ 0 :: rest) =
        (if vars.length < size then .ok (vars.map entryText) else .error .exits) ∧
      envLoop size (entries vars) = if vars.length < size then .error .undefined else .error .exits := by
  induction vars generalizing size with
  | nil => cases size <;> exact ⟨rfl, rfl⟩
  | cons v vars ih =>
    cases size with
    | zero => exact ⟨rfl, rfl⟩
    | succ size =>
      obtain ⟨hnul, hne⟩ := entryText_spec v
      obtain ⟨hends, hlacks⟩ := ih size
      rw [entries_cons, List.append_assoc, bytes_eq_entryText, bytes_eq_entryText, envLoop_cons hnul hne,
        envLoop_cons hnul hne, hends, hlacks, List.length_cons]
      by_cases hsize : size = 0
      · subst hsize
        simp
      · rw [if_neg hsize, if_neg hsize]
        by_cases hlength : vars.length < size
        · rw [if_pos hlength, if_pos (by omega), if_pos hlength, if_pos (by omega)]
          exact ⟨rfl, rfl⟩
        · rw [if_neg hlength, if_neg (by omega), if_neg hlength, if_neg (by omega)]
          exact ⟨rfl, rfl⟩

theorem envLength_text {text : Str} (htext : (0 : Byte) ∉ text) (c : Byte) (rest : Str) :
    envLength (text ++ 0 :: c :: rest) =
      if c = 0 then some text.length else (envLength (c :: rest)).map (· + (text.length + 1)) := by
  induction text with
  | nil =>
    rw [List.nil_append, envLength]
    by_cases hc : c = 0
    · rw [if_pos ⟨rfl, hc⟩, if_pos hc]
      rfl
    · rw [if_neg fun h => hc h.2, if_neg hc]
      rfl
  | cons b text ih =>
    obtain ⟨hb, htext⟩ := not_or.mp (mt List.mem_cons.mpr htext)
    have hcons : ∃ d s, text ++ 0 :: c :: rest = d :: s := by
      cases text with
      | nil => exact ⟨_, _, rfl⟩
      | cons d text => exact ⟨_, _, rfl⟩
    obtain ⟨d, s, hd⟩ := hcons
    have ih := ih htext
    rw [hd] at ih
    rw [List.cons_append, hd, envLength, if_neg fun h => hb h.1.symm, ih]
    split_ifs
    · rfl
    · rw [Option.map_map]
      congr 1

/-- The scan ends at the NUL of the last entry. -/
theorem envLength_block {vars : List Variable} (hvars : vars ≠ []) (rest : Str) :
    envLength (block vars ++ rest) = some ((entries vars).length - 1) := by
  induction vars with
  | nil => exact absurd rfl hvars
  | cons v vars ih =>
    obtain ⟨hnul, -⟩ := entryText_spec v
    have hlength : v.bytes.length = (entryText v).length + 1 := by
      have := congrArg List.length (bytes_eq_entryText v [])
      simpa using this
    rw [block_cons, List.append_assoc, bytes_eq_entryText, entries_cons, List.length_append, hlength]
    by_cases hnil : vars = []
    · subst hnil
      change envLength (entryText v ++ 0 :: 0 :: rest) = _
      rw [envLength_text hnul, if_pos rfl]
      rfl
    · obtain ⟨w, vars, rfl⟩ := List.exists_cons_of_ne_nil hnil
      obtain ⟨c, s, hbytes, hc⟩ := w.bytes_head
      have hcons : block (w :: vars) ++ rest = c :: (s ++ (block vars ++ rest)) := by
        rw [block_cons, List.append_assoc, hbytes, List.cons_append]
      have ih := ih hnil
      have hpos : 0 < (entries (w :: vars)).length := by
        rw [entries_cons, hbytes]
        exact Nat.succ_pos _
      rw [hcons] at ih ⊢
      rw [envLength_text hnul, if_neg hc, ih, Option.map_some]
      congr 1
      omega

/-- **The environment of a process that the fork server starts** has no end: of any block of variables the last NUL
is left behind, and `generateEnvString` goes on behind the buffer, unless the entries are too many. Without the
fork server the entries are those of the block. -/
theorem env_of_block {vars : List Variable} (hvars : vars ≠ []) (size : Nat) (rest : Str) :
    (sentEnv (some (block vars ++ rest))).map (fun env => generateEnvString size (receivedEnv env)) =
        some (if vars.length < size then .error .undefined else .error .exits) ∧
      generateEnvString size (some (block vars ++ rest)) =
        if vars.length < size then .ok (vars.map entryText) else .error .exits := by
  obtain ⟨v, more, rfl⟩ := List.exists_cons_of_ne_nil hvars
  obtain ⟨front, hfront⟩ : ∃ front, entries (v :: more) = front ++ [0] := by
    obtain ⟨init, last, hlast⟩ := List.eq_nil_or_concat (v :: more) |>.resolve_left hvars
    rw [hlast, List.concat_eq_append, entries, List.flatMap_append, List.flatMap_singleton]
    exact ⟨_, by rw [Variable.bytes, ← List.cons_append, ← List.append_assoc, ← List.append_assoc]⟩
  constructor
  · have hsent : sentEnv (some (block (v :: more) ++ rest)) = some front := by
      unfold sentEnv
      dsimp only
      rw [envLength_block hvars, Option.map_some, block, hfront, List.length_append, List.length_singleton,
        Nat.add_sub_cancel, List.append_assoc, List.append_assoc, List.take_left]
    have hreceived : receivedEnv front = some (entries (v :: more)) := by
      obtain ⟨c, s, hbytes, hc⟩ := v.bytes_head
      unfold receivedEnv
      rw [← hfront, if_neg]
      rw [entries_cons, hbytes, List.cons_append, List.head?_cons, Option.some_inj]
      exact hc
    rw [hsent, Option.map_some, hreceived]
    exact congrArg some (envLoop_entries (v :: more) size rest).2
  · have hblock : block (v :: more) ++ rest = entries (v :: more) ++ 0 :: rest := by
      rw [block, List.append_assoc, List.singleton_append]
    rw [hblock]
    exact (envLoop_entries (v :: more) size rest).1

/-- One variable, sent to the fork server. -/
theorem env_of_one : (sentEnv (some (block [⟨[ch 'A'], [], by decide, by decide, by decide⟩]))).map
    (fun env => generateEnvString 100 (receivedEnv env)) = some (.error .undefined) :=
  (@env_of_block [⟨[ch 'A'], [], by decide, by decide, by decide⟩] (List.cons_ne_nil _ _) 100 []).1

/-! ## The request -/

/-- The four bytes of an `int`. -/
def intBytes (n : Nat) : Str :=
  [UInt8.ofNat n, UInt8.ofNat (n / 2 ^ 8), UInt8.ofNat (n / 2 ^ 16), UInt8.ofNat (n / 2 ^ 24)]

def ofBytes (s : Str) : Nat := s.foldr (fun b n => b.toNat + 2 ^ 8 * n) 0

def writeString (s : Str) : Str := intBytes s.length ++ s

/-- One read of four bytes. With fewer of them the integer has no value. -/
def readInt (fs : List Str) : Except Stop (Nat × List Str) :=
  let (bytes, fs) := Fragments.take 4 fs
  if bytes.length < 4 then .error .undefined else .ok (ofBytes bytes, fs)

/-- One read for the length and one for the string. When it comes back with -1 the pointer is no string. -/
def readString (fs : List Str) : Except Stop (Str × List Str) :=
  match readInt fs with
  | .error stop => .error stop
  | .ok (len, fs) =>
    -- `new char[len + 1]` throws
    if 2 ^ 31 - 1 ≤ len then .error .exits
    else if len = 0 then .ok ([], fs)
    else
      let (bytes, fs) := Fragments.take len fs
      if bytes.length < len then .error .undefined else .ok (bytes, fs)

def readStrings : Nat → List Str → Except Stop (List Str × List Str)
  | 0, fs => .ok ([], fs)
  | n + 1, fs =>
    match readString fs with
    | .error stop => .error stop
    | .ok (s, fs) => (readStrings n fs).map fun r => (s :: r.1, r.2)

structure StartProcInfo where
  cmd : Str
  arg : Str
  cwd : Str
  chroot : Str
  uid : Str
  gid : Str
  /-- The memory from `envString` on. -/
  env : Option Str
  stdIn : Int
  stdOut : Int
  stdError : Int
deriving DecidableEq

/-- `FLAG_USE_IN`, `FLAG_USE_OUT`, `FLAG_USE_ERR` and `FLAG_STDIN_SOCKET`. -/
structure Flags where
  useIn : Bool
  useOut : Bool
  useErr : Bool
  stdinSocket : Bool
deriving DecidableEq

def Flags.number (flags : Flags) : Nat :=
  flags.useIn.toNat + 2 * flags.useOut.toNat + 4 * flags.useErr.toNat + 8 * flags.stdinSocket.toNat

def Flags.of (n : Nat) : Flags := ⟨n.testBit 0, n.testBit 1, n.testBit 2, n.testBit 3⟩

/-- The handles that go with the request, in their order. -/
def Flags.handles (flags : Flags) (spi : StartProcInfo) : List Int :=
  (if flags.useIn then [spi.stdIn] else []) ++ (if flags.useOut then [spi.stdOut] else []) ++
    (if flags.useErr then [spi.stdError] else [])

/-- The strings of a request, in their order. -/
def StartProcInfo.strings (spi : StartProcInfo) : List Str :=
  [spi.gid, spi.uid, spi.cmd, spi.cwd, spi.arg, spi.chroot, (sentEnv spi.env).getD []]

def request (flags : Flags) (spi : StartProcInfo) : Str :=
  ch 'r' :: (intBytes flags.number ++ spi.strings.flatMap writeString)

/-- What `executeProcess` writes, and the handles, which go as messages of their own. `none` is an environment
whose end is looked for behind its memory. -/
def executeProcess (flags : Flags) (spi : StartProcInfo) : Option (Str × List Int) :=
  (sentEnv spi.env).map fun _ => (request flags spi, flags.handles spi)

/-- `readFileHandle` when the flag is set. -/
def takeHandle (use : Bool) (handles : List Int) : Int × List Int :=
  if use then (handles.headD (-1), handles.tail) else (-1, handles)

/-- `handleRequest` up to the process that it starts. `none` is a request for a listener that cannot be had. -/
def handleRequest (listener : Option Int) (handles : List Int) (fs : List Str) : Except Stop (Option StartProcInfo) :=
  match readInt fs with
  | .error stop => .error stop
  | .ok (number, fs) =>
    let flags := Flags.of number
    let (stdIn, handles) := takeHandle flags.useIn handles
    let (stdOut, handles) := takeHandle flags.useOut handles
    let (stdError, _) := takeHandle flags.useErr handles
    match readStrings 7 fs with
    | .ok ([gid, uid, exec, cwd, arg, chroot, env], _) =>
      let spi : StartProcInfo :=
        { cmd := cstr exec, arg := cstr arg, cwd := cstr cwd, chroot := cstr chroot, uid := cstr uid, gid := cstr gid
          env := receivedEnv env, stdIn, stdOut, stdError }
      if flags.stdinSocket then .ok (listener.map fun h => { spi with stdIn := h, stdOut := -1, stdError := -1 })
      else .ok (some spi)
    | .ok _ => .error .undefined
    | .error stop => .error stop

/-- A connection of `forkServerLoop`. -/
def connection (listener : Option Int) (handles : List Int) (fs : List Str) : Except Stop (Option StartProcInfo) :=
  let (command, fs) := Fragments.take 1 fs
  match command with
  | [] => .error .undefined
  | c :: _ =>
    if c = ch 'e' then .error .exits
    else if c = ch 'r' then handleRequest listener handles fs
    else .ok none

/-- The process that is asked for, as the fork server can start it. -/
def forked (listener : Option Int) (flags : Flags) (spi : StartProcInfo) : Option StartProcInfo :=
  let given : StartProcInfo :=
    { cmd := cstr spi.cmd, arg := cstr spi.arg, cwd := cstr spi.cwd, chroot := cstr spi.chroot, uid := cstr spi.uid
      gid := cstr spi.gid, env := receivedEnv ((sentEnv spi.env).getD [])
      stdIn := if flags.useIn then spi.stdIn else -1
      stdOut := if flags.useOut then spi.stdOut else -1
      stdError := if flags.useErr then spi.stdError else -1 }
  if flags.stdinSocket then listener.map fun h => { given with stdIn := h, stdOut := -1, stdError := -1 } else some given

/-! ## Reading the request -/

/-- Inside of an integer or of a string. -/
def Inside : List Str → Nat → Prop
  | [], _ => False
  | s :: strings, k => (0 < k ∧ k < 4) ∨ (4 < k ∧ k < 4 + s.length) ∨ ∃ j, k = 4 + s.length + j ∧ Inside strings j

theorem ofBytes_intBytes {n : Nat} (h : n < 2 ^ 32) : ofBytes (intBytes n) = n := by
  simp only [ofBytes, intBytes, List.foldr_cons, List.foldr_nil, UInt8.toNat_ofNat']
  omega

theorem length_intBytes (n : Nat) : (intBytes n).length = 4 := rfl

open Fragments

/-- **A read comes whole** exactly when nothing is cut inside of it. -/
theorem take_whole_iff {fs : List Str} (hproper : Proper fs) {s rest : Str} (hflatten : fs.flatten = s ++ rest) :
    s.length ≤ (take s.length fs).1.length ↔ ∀ j, 0 < j → j < s.length → ¬ CutAt fs j := by
  constructor
  · intro hwhole j _ hj hcut
    have := take_length_le_of_cut (n := s.length) hcut
    omega
  · intro hcut
    refine (take_length_of_no_cut hproper hcut ?_).ge
    rw [hflatten, List.length_append]
    exact Nat.le_add_right _ _

/-- What a whole read gives and leaves. -/
theorem taken_whole {fs : List Str} (hproper : Proper fs) {s rest : Str} (hflatten : fs.flatten = s ++ rest)
    (hwhole : s.length ≤ (take s.length fs).1.length) :
    (take s.length fs).1 = s ∧ Taken fs s (take s.length fs).2 ∧ (take s.length fs).2.flatten = rest := by
  have htaken := taken_take hproper s.length
  have hlength : (take s.length fs).1.length = s.length := le_antisymm (take_length_le _ _) hwhole
  have happend := htaken.append
  rw [hflatten] at happend
  obtain ⟨hs, hrest⟩ := List.append_inj happend hlength
  rw [hs] at htaken
  exact ⟨hs, htaken, hrest⟩

section Reading

variable {fs : List Str} {rest : Str}

theorem readInt_whole (hproper : Proper fs) {n : Nat} (hn : n < 2 ^ 32) (hflatten : fs.flatten = intBytes n ++ rest)
    (hcut : ∀ j, 0 < j → j < 4 → ¬ CutAt fs j) :
    ∃ fs', readInt fs = .ok (n, fs') ∧ Taken fs (intBytes n) fs' ∧ fs'.flatten = rest := by
  have hwhole := (take_whole_iff hproper hflatten).mpr hcut
  obtain ⟨hs, htaken, hrest⟩ := taken_whole hproper hflatten hwhole
  rw [length_intBytes] at hs htaken hrest
  refine ⟨_, ?_, htaken, hrest⟩
  unfold readInt
  dsimp only
  rw [hs, length_intBytes, if_neg (lt_irrefl 4), ofBytes_intBytes hn]

theorem readInt_cut (hproper : Proper fs) {n : Nat} (hflatten : fs.flatten = intBytes n ++ rest) {k : Nat}
    (hpos : 0 < k) (hk : k < 4) (hcut : CutAt fs k) : readInt fs = .error .undefined := by
  have hshort : ¬ 4 ≤ (take 4 fs).1.length := fun h =>
    (take_whole_iff hproper hflatten).mp h k hpos hk hcut
  unfold readInt
  dsimp only
  rw [if_pos (by omega)]

theorem readString_whole (hproper : Proper fs) {s : Str} (hs : s.length < 2 ^ 31 - 1)
    (hflatten : fs.flatten = writeString s ++ rest) (hcut : ∀ k, Inside [s] k → ¬ CutAt fs k) :
    ∃ fs', readString fs = .ok (s, fs') ∧ Taken fs (writeString s) fs' ∧ fs'.flatten = rest := by
  rw [writeString, List.append_assoc] at hflatten
  obtain ⟨fs', hread, htaken, hflatten'⟩ := readInt_whole hproper (by omega) hflatten
    fun j hj hlt => hcut j (Or.inl ⟨hj, hlt⟩)
  by_cases hnil : s = []
  · subst hnil
    refine ⟨fs', ?_, ?_, hflatten'⟩
    · unfold readString
      rw [hread]
      rfl
    · rw [writeString, List.append_nil]
      exact htaken
  · have hwhole := (take_whole_iff htaken.proper hflatten').mpr fun j hj hlt hcut' =>
      hcut (4 + j) (Or.inr (Or.inl ⟨by omega, by omega⟩)) ((htaken.cut j hj).mp hcut')
    obtain ⟨hbytes, htaken', hrest⟩ := taken_whole htaken.proper hflatten' hwhole
    refine ⟨_, ?_, htaken.trans htaken', hrest⟩
    unfold readString
    rw [hread]
    dsimp only
    rw [if_neg (by omega), if_neg (by rwa [List.length_eq_zero_iff]), hbytes, if_neg (lt_irrefl _)]

theorem readString_cut (hproper : Proper fs) {s : Str} (hs : s.length < 2 ^ 31 - 1)
    (hflatten : fs.flatten = writeString s ++ rest) {k : Nat} (hinside : Inside [s] k) (hcut : CutAt fs k) :
    readString fs = .error .undefined := by
  rw [writeString, List.append_assoc] at hflatten
  by_cases hfirst : ∃ j, 0 < j ∧ j < 4 ∧ CutAt fs j
  · obtain ⟨j, hj, hlt, hcut⟩ := hfirst
    unfold readString
    rw [readInt_cut hproper hflatten hj hlt hcut]
  · push Not at hfirst
    obtain ⟨fs', hread, htaken, hflatten'⟩ := readInt_whole hproper (by omega) hflatten
      fun j hj hlt => hfirst j hj hlt
    rcases hinside with ⟨hpos, hlt⟩ | ⟨hlt, hgt⟩ | ⟨_, _, hfalse⟩
    · exact absurd hcut (hfirst k hpos hlt)
    · have hcut' : CutAt fs' (k - 4) := by
        rw [htaken.cut (k - 4) (by omega), length_intBytes, show 4 + (k - 4) = k by omega]
        exact hcut
      have hshort : ¬ s.length ≤ (take s.length fs').1.length := fun h =>
        (take_whole_iff htaken.proper hflatten').mp h (k - 4) (by omega) (by omega) hcut'
      unfold readString
      rw [hread]
      dsimp only
      rw [if_neg (by omega), if_neg (by omega), if_pos (by omega)]
    · exact absurd hfalse id

/-- **The strings are read as they were written** exactly when nothing is cut inside of one of them or of its
length. Otherwise none is to be relied on. -/
theorem readStrings_cases (hproper : Proper fs) {strings : List Str} (hlength : ∀ s ∈ strings, s.length < 2 ^ 31 - 1)
    (hflatten : fs.flatten = strings.flatMap writeString ++ rest) :
    ((∀ k, Inside strings k → ¬ CutAt fs k) → ∃ fs', readStrings strings.length fs = .ok (strings, fs')) ∧
      ((∃ k, Inside strings k ∧ CutAt fs k) → readStrings strings.length fs = .error .undefined) := by
  induction strings generalizing fs with
  | nil => exact ⟨fun _ => ⟨fs, rfl⟩, fun ⟨k, hk, _⟩ => absurd hk id⟩
  | cons s strings ih =>
    obtain ⟨hs, hlength⟩ := List.forall_mem_cons.mp hlength
    rw [List.flatMap_cons, List.append_assoc] at hflatten
    have hsplit : ∀ k, Inside (s :: strings) k ↔ Inside [s] k ∨ ∃ j, k = 4 + s.length + j ∧ Inside strings j := by
      intro k
      simp only [Inside, and_false, exists_false, or_false, or_assoc]
    by_cases hfirst : ∃ k, Inside [s] k ∧ CutAt fs k
    · obtain ⟨k, hk, hcut⟩ := hfirst
      refine ⟨fun h => absurd hcut (h k ((hsplit k).mpr (Or.inl hk))), fun _ => ?_⟩
      rw [List.length_cons, readStrings, readString_cut hproper hs hflatten hk hcut]
    · push Not at hfirst
      obtain ⟨fs', hread, htaken, hflatten'⟩ := readString_whole hproper hs hflatten hfirst
      obtain ⟨hwhole, hshort⟩ := ih htaken.proper hlength hflatten'
      have hmoved : ∀ j, Inside strings j → (CutAt fs' j ↔ CutAt fs (4 + s.length + j)) := by
        intro j hj
        have hpos : 0 < j := by
          cases strings with
          | nil => exact absurd hj id
          | cons t strings =>
            rcases hj with ⟨h, -⟩ | ⟨h, -⟩ | ⟨i, rfl, -⟩ <;> omega
        rw [htaken.cut j hpos, writeString, List.length_append, length_intBytes]
      rw [List.length_cons, readStrings, hread]
      constructor
      · intro hcut
        obtain ⟨fs'', hrest⟩ := hwhole fun j hj hcut' =>
          hcut _ ((hsplit _).mpr (Or.inr ⟨j, rfl, hj⟩)) ((hmoved j hj).mp hcut')
        exact ⟨fs'', by dsimp only; rw [hrest]; rfl⟩
      · rintro ⟨k, hk, hcut⟩
        rcases (hsplit k).mp hk with hk | ⟨j, rfl, hj⟩
        · exact absurd hcut (hfirst k hk)
        · dsimp only
          rw [hshort ⟨j, hj, (hmoved j hj).mpr hcut⟩]
          rfl

end Reading

/-! ## The process that is started -/

theorem Flags.of_number (flags : Flags) : Flags.of flags.number = flags ∧ flags.number < 2 ^ 32 := by
  obtain ⟨a, b, c, d⟩ := flags
  cases a <;> cases b <;> cases c <;> cases d <;> decide

/-- Inside of one of the parts of a request. -/
def InsideRequest (spi : StartProcInfo) (k : Nat) : Prop :=
  (1 < k ∧ k < 5) ∨ ∃ j, k = 5 + j ∧ Inside spi.strings j

/-- **The fork server starts what it was asked for** exactly when none of the parts of the request is cut in two on
the way: an integer or a string is taken with one read, whatever that brings. -/
theorem connection_iff {flags : Flags} {spi : StartProcInfo} {bytes : Str} {handles : List Int}
    (hsent : executeProcess flags spi = some (bytes, handles)) (hlength : ∀ s ∈ spi.strings, s.length < 2 ^ 31 - 1)
    {fs : List Str} (hproper : Proper fs) (hflatten : fs.flatten = bytes) (listener : Option Int) :
    connection listener handles fs = .ok (forked listener flags spi) ↔
      ∀ k, InsideRequest spi k → ¬ CutAt fs k := by
  obtain ⟨-, -, heq⟩ := Option.map_eq_some_iff.mp hsent
  obtain ⟨rfl, rfl⟩ := Prod.mk.inj heq
  obtain ⟨hflags, hnumber⟩ := flags.of_number
  have hcommand : fs.flatten = [ch 'r'] ++ (intBytes flags.number ++ spi.strings.flatMap writeString) := hflatten
  have hone := (take_whole_iff hproper hcommand).mpr fun j hj hlt => by
    rw [List.length_singleton] at hlt
    omega
  obtain ⟨hfirst, htaken, hflatten'⟩ := taken_whole hproper hcommand hone
  rw [List.length_singleton] at hfirst htaken hflatten'
  have hconnection : connection listener (flags.handles spi) fs =
      handleRequest listener (flags.handles spi) (take 1 fs).2 := by
    unfold connection
    dsimp only
    rw [hfirst]
    dsimp only
    rw [if_neg (by decide), if_pos rfl]
  have hmoved : ∀ j, 0 < j → (CutAt (take 1 fs).2 j ↔ CutAt fs (1 + j)) := htaken.cut
  rw [hconnection]
  by_cases hint : ∃ j, 0 < j ∧ j < 4 ∧ CutAt (take 1 fs).2 j
  · obtain ⟨j, hj, hlt, hcut⟩ := hint
    refine iff_of_false (fun h => ?_) fun h => h (1 + j) (Or.inl ⟨by omega, by omega⟩) ((hmoved j hj).mp hcut)
    unfold handleRequest at h
    rw [readInt_cut htaken.proper hflatten' hj hlt hcut] at h
    cases h
  · push Not at hint
    obtain ⟨fs', hread, htaken', hrest⟩ := readInt_whole htaken.proper hnumber hflatten' hint
    obtain ⟨hwhole, hshort⟩ := @readStrings_cases _ [] htaken'.proper _ hlength (by rw [List.append_nil]; exact hrest)
    have hmoved' : ∀ j, 0 < j → (CutAt fs' j ↔ CutAt fs (5 + j)) := by
      intro j hj
      rw [htaken'.cut j hj, length_intBytes, hmoved _ (by omega), show 1 + (4 + j) = 5 + j by omega]
    have hpos : ∀ {j}, Inside spi.strings j → 0 < j := by
      rintro j (⟨h, -⟩ | ⟨h, -⟩ | ⟨i, rfl, -⟩) <;> omega
    by_cases hstrings : ∃ j, Inside spi.strings j ∧ CutAt fs' j
    · obtain ⟨j, hj, hcut⟩ := hstrings
      refine iff_of_false (fun h => ?_) fun h =>
        h (5 + j) (Or.inr ⟨j, rfl, hj⟩) ((hmoved' j (hpos hj)).mp hcut)
      have hfail := hshort ⟨j, hj, hcut⟩
      unfold handleRequest at h
      rw [hread] at h
      dsimp only at h
      rw [show 7 = spi.strings.length from rfl, hfail] at h
      cases h
    · push Not at hstrings
      obtain ⟨fs'', hread'⟩ := hwhole hstrings
      refine iff_of_true ?_ ?_
      · unfold handleRequest
        rw [hread]
        dsimp only
        rw [show 7 = spi.strings.length from rfl, hread', hflags]
        obtain ⟨useIn, useOut, useErr, stdinSocket⟩ := flags
        cases useIn <;> cases useOut <;> cases useErr <;> cases stdinSocket <;> rfl
      · rintro k (⟨hlow, hhigh⟩ | ⟨j, rfl, hj⟩)
        · obtain ⟨j, rfl⟩ := Nat.exists_eq_add_of_lt hlow
          rw [Nat.add_assoc, ← hmoved _ (by omega)]
          exact hint _ (by omega) (by omega)
        · rw [← hmoved' j (hpos hj)]
          exact hstrings j hj

def shell : StartProcInfo where
  cmd := ascii "/bin/sh"
  arg := ascii "-c true"
  cwd := ascii "/"
  chroot := []
  uid := ascii "1"
  gid := []
  env := none
  stdIn := 3
  stdOut := 4
  stdError := 4

theorem not_cut_shell :
    connection none ((⟨true, false, false, false⟩ : Flags).handles shell)
        [request ⟨true, false, false, false⟩ shell] =
        .ok (forked none ⟨true, false, false, false⟩ shell) ∧
      ∀ k, InsideRequest shell k → ¬ CutAt [request ⟨true, false, false, false⟩ shell] k := by
  have hstarted : connection none ((⟨true, false, false, false⟩ : Flags).handles shell)
      [request ⟨true, false, false, false⟩ shell] =
      .ok (forked none ⟨true, false, false, false⟩ shell) := by decide +kernel
  exact ⟨hstarted, (@connection_iff ⟨true, false, false, false⟩ shell _ _ rfl (by decide)
    [request ⟨true, false, false, false⟩ shell] (by simp [Proper, request]) (by simp) none).mp hstarted⟩

end MyServer.Fork
