import MyServer.Base.IStringStream
import MyServer.Gopher.Engine
import MyServer.Lib.Separated

/-!
# The texts of a Gopher menu

`GopherMenu::addIntro` with `istream::getline`.
-/

open MyServer.Separated

namespace MyServer

/-- `s.getline (buffer, n)`, with the text that is in the buffer behind it. -/
def IStringStream.getline (s : IStringStream) (n : Nat) : IStringStream × Str :=
  if s.good then
    let text := (s.rest.takeWhile (· ≠ ch '\n')).take (n - 1)
    match s.rest.drop text.length with
    | [] => (⟨[], true, text = []⟩, text)
    | b :: rest => if b = ch '\n' then (⟨rest, false, false⟩, text) else (⟨b :: rest, false, true⟩, text)
  else ({ s with failbit := true }, [])

namespace Gopher

/-- An entry as it is kept, with a host and a port of its own. -/
structure MenuItem extends GopherItem where
  host : Str
  port : Str
  deriving DecidableEq

def gopherInfo (host port myline : Str) : MenuItem :=
  ⟨⟨ch 'i', cstr myline, ascii "(None)"⟩, cstr host, cstr port⟩

def addIntroLoop (size : Nat) (host port : Str) : Nat → IStringStream → Option (List MenuItem)
  | 0, _ => none
  | fuel + 1, str =>
    let next := str.getline size
    if next.1.eofbit then some [gopherInfo host port next.2]
    else (addIntroLoop size host port fuel next.1).map (gopherInfo host port next.2 :: ·)

/-- Nothing can be told of an empty text: the array for the line has no place in it, and is read. -/
def addIntro (fuel : Nat) (freeText host port : Str) (items : List MenuItem) : Option (List MenuItem) :=
  if freeText.length = 0 then none
  else (addIntroLoop freeText.length host port fuel (.ofText freeText)).map (· ++ items)

/-! ## What it is to add -/

def info (host port text : Str) : MenuItem := ⟨⟨ch 'i', text, ascii "(None)"⟩, cstr host, cstr port⟩

/-- One entry for each line, and the lines with breaks between them are the text. -/
def AddsLines (freeText host port : Str) (items result : List MenuItem) : Prop :=
  ∃ texts : List Str, texts ≠ [] ∧ (∀ t ∈ texts, ch '\n' ∉ t) ∧ [ch '\n'].intercalate texts = freeText ∧
    result = texts.map (info host port) ++ items

/-! ## Lines -/

theorem splitOn_line {a : Str} (ha : ch '\n' ∉ a) (b : Str) :
    (a ++ ch '\n' :: b).splitOn (ch '\n') = a :: b.splitOn (ch '\n') :=
  List.splitOn_append_cons_self_of_not_mem ha b

theorem length_le_of_mem_splitOn (text : Str) : ∀ t ∈ text.splitOn (ch '\n'), t.length ≤ text.length := by
  induction text using parts_induction (ch '\n') with
  | last text hline =>
    intro t ht
    rw [List.splitOn_eq_singleton hline, List.mem_singleton] at ht
    rw [ht]
  | more a b ha hb =>
    intro t ht
    rw [splitOn_line ha, List.mem_cons] at ht
    rw [List.length_append, List.length_cons]
    rcases ht with rfl | ht
    · omega
    · have := hb t ht
      omega

theorem length_lt_of_mem_splitOn {text : Str} (hmem : ch '\n' ∈ text) :
    ∀ t ∈ text.splitOn (ch '\n'), t.length < text.length := by
  obtain ⟨a, b, rfl, ha⟩ := List.eq_append_cons_of_mem hmem
  intro t ht
  rw [splitOn_line ha, List.mem_cons] at ht
  rw [List.length_append, List.length_cons]
  rcases ht with rfl | ht
  · omega
  · have := length_le_of_mem_splitOn b t ht
    omega

theorem notMem_of_mem_splitOn (text : Str) : ∀ t ∈ text.splitOn (ch '\n'), ch '\n' ∉ t := by
  induction text using parts_induction (ch '\n') with
  | last text hline => simpa [List.splitOn_eq_singleton hline] using hline
  | more a b ha hb => simpa [splitOn_line ha] using ⟨ha, hb⟩

theorem zero_mem_iff (text : Str) : 0 ∈ text ↔ ∃ t ∈ text.splitOn (ch '\n'), 0 ∈ t := by
  induction text using parts_induction (ch '\n') with
  | last text hline => simp [List.splitOn_eq_singleton hline]
  | more a b ha hb =>
    have hne : (0 : Byte) ≠ ch '\n' := by decide
    simp [splitOn_line ha, hb, hne]

/-! ## The rounds -/

theorem good_ofText (text : Str) : (IStringStream.ofText text).good = true := rfl

theorem getline_last {t : Str} (ht : ch '\n' ∉ t) {n : Nat} (hn : t.length < n) :
    (IStringStream.ofText t).getline n = (⟨[], true, t = []⟩, t) := by
  rw [IStringStream.getline, if_pos (good_ofText _)]
  simp only [IStringStream.ofText, takeWhile_of_notMem ht, List.take_of_length_le (show t.length ≤ n - 1 by omega), List.drop_length]

theorem getline_more {a : Str} (ha : ch '\n' ∉ a) (b : Str) {n : Nat} (hn : a.length < n) :
    (IStringStream.ofText (a ++ ch '\n' :: b)).getline n = (.ofText b, a) := by
  rw [IStringStream.getline, if_pos (good_ofText _)]
  simp only [IStringStream.ofText, takeWhile_append_cons ha, List.take_of_length_le (show a.length ≤ n - 1 by omega),
    List.drop_left, if_true]

/-- A failure is never left again, and is not the end of the text. -/
theorem addIntroLoop_of_failbit (size : Nat) (host port : Str) (fuel : Nat) {s : IStringStream}
    (hfail : s.failbit = true) (heof : s.eofbit = false) : addIntroLoop size host port fuel s = none := by
  induction fuel generalizing s with
  | zero => rfl
  | succ fuel ih =>
    have hnext : s.getline size = (s, []) := by
      rw [IStringStream.getline, if_neg (by simp [IStringStream.good, hfail])]
      cases s
      simpa using hfail.symm
    rw [addIntroLoop, hnext]
    simp [heof, ih hfail heof]

theorem addIntroLoop_lines (size : Nat) (host port : Str) (text : Str)
    (hfit : ∀ t ∈ text.splitOn (ch '\n'), t.length < size) (fuel : Nat) :
    addIntroLoop size host port fuel (.ofText text) =
      if (text.splitOn (ch '\n')).length ≤ fuel then
        some ((text.splitOn (ch '\n')).map (gopherInfo host port)) else none := by
  induction text using parts_induction (ch '\n') generalizing fuel with
  | last t ht =>
    rw [List.splitOn_eq_singleton ht] at hfit ⊢
    cases fuel with
    | zero => rfl
    | succ fuel =>
      rw [addIntroLoop, getline_last ht (hfit t List.mem_cons_self)]
      simp
  | more a b ha ih =>
    rw [splitOn_line ha, List.forall_mem_cons] at hfit
    rw [splitOn_line ha]
    cases fuel with
    | zero => rfl
    | succ fuel =>
      rw [addIntroLoop, getline_more ha b hfit.1]
      simp only [IStringStream.ofText, Bool.false_eq_true, if_false, List.length_cons, Nat.succ_le_succ_iff,
        List.map_cons]
      rw [← IStringStream.ofText, ih hfit.2 fuel]
      split_ifs <;> rfl

/-- The line has one place less than the text, and the NUL needs one. -/
theorem addIntroLoop_one_line {text : Str} (hline : ch '\n' ∉ text) (hne : text ≠ []) (host port : Str)
    (fuel : Nat) : addIntroLoop text.length host port fuel (.ofText text) = none := by
  cases fuel with
  | zero => rfl
  | succ fuel =>
    have hlast : text.drop (text.length - 1) = [text.getLast hne] := List.drop_length_sub_one hne
    have hpos := List.length_pos_iff.mpr hne
    have hlf : text.getLast hne ≠ ch '\n' := fun heq => hline (heq ▸ List.getLast_mem hne)
    have hnext : (IStringStream.ofText text).getline text.length =
        (⟨[text.getLast hne], false, true⟩, text.take (text.length - 1)) := by
      rw [IStringStream.getline, if_pos (good_ofText _)]
      simp only [IStringStream.ofText, takeWhile_of_notMem hline, List.length_take, Nat.min_eq_left (Nat.sub_le _ 1), hlast, if_neg hlf]
    rw [addIntroLoop, hnext]
    simp [addIntroLoop_of_failbit]

/-! ## The text as a whole -/

theorem addIntro_of_mem {freeText : Str} (hmem : ch '\n' ∈ freeText) (fuel : Nat) (host port : Str)
    (items : List MenuItem) : addIntro fuel freeText host port items =
      if (freeText.splitOn (ch '\n')).length ≤ fuel then
        some ((freeText.splitOn (ch '\n')).map (gopherInfo host port) ++ items) else none := by
  rw [addIntro, if_neg (List.length_pos_of_mem hmem).ne',
    addIntroLoop_lines _ host port freeText (length_lt_of_mem_splitOn hmem)]
  split_ifs <;> rfl

theorem addIntro_of_notMem {freeText : Str} (hmem : ch '\n' ∉ freeText) (fuel : Nat) (host port : Str)
    (items : List MenuItem) : addIntro fuel freeText host port items = none := by
  rw [addIntro]
  split_ifs with hempty
  · rfl
  · rw [addIntroLoop_one_line hmem (by simpa using hempty), Option.map_none]

theorem gopherInfo_eq_info_iff (host port t : Str) : gopherInfo host port t = info host port t ↔ 0 ∉ t := by
  constructor
  · intro h
    have hdesc : cstr t = t := congrArg (fun item : MenuItem => item.desc) h
    rw [← hdesc]
    exact zero_notMem_cstr t
  · intro h
    rw [gopherInfo, info, cstr_of_notMem h]

theorem map_gopherInfo {freeText : Str} (hzero : 0 ∉ freeText) (host port : Str) :
    (freeText.splitOn (ch '\n')).map (gopherInfo host port) = (freeText.splitOn (ch '\n')).map (info host port) := by
  rw [zero_mem_iff] at hzero
  rw [List.map_inj_left]
  intro t ht
  exact (gopherInfo_eq_info_iff host port t).mpr fun h => hzero ⟨t, ht, h⟩

/-- **When `addIntro` adds the lines of a text**: there is a line break in it, and no NUL. -/
theorem addIntro_lines_iff (freeText host port : Str) (items : List MenuItem) :
    (∃ fuel result, addIntro fuel freeText host port items = some result ∧
      AddsLines freeText host port items result) ↔ ch '\n' ∈ freeText ∧ 0 ∉ freeText := by
  constructor
  · rintro ⟨fuel, result, hresult, texts, hne, hlines, rfl, rfl⟩
    have hmem : ch '\n' ∈ [ch '\n'].intercalate texts := by
      by_contra hmem
      rw [addIntro_of_notMem hmem] at hresult
      exact absurd hresult (by simp)
    refine ⟨hmem, ?_⟩
    rw [addIntro_of_mem hmem, List.splitOn_intercalate _ hlines hne] at hresult
    split_ifs at hresult
    have hmap := List.append_cancel_right (Option.some.inj hresult)
    rw [zero_mem_iff, List.splitOn_intercalate _ hlines hne]
    rintro ⟨t, ht, hzero⟩
    exact (gopherInfo_eq_info_iff host port t).mp (List.map_inj_left.mp hmap t ht) hzero
  · rintro ⟨hmem, hzero⟩
    refine ⟨_, _, (addIntro_of_mem hmem _ host port items).trans (if_pos le_rfl), freeText.splitOn (ch '\n'),
      List.splitOn_ne_nil _ _, notMem_of_mem_splitOn freeText, List.intercalate_splitOn _, ?_⟩
    rw [map_gopherInfo hzero]

/-- A text of one line, without a break behind it: the loop goes on for ever. -/
theorem not_addIntro_lines : ¬ ∀ (freeText host port : Str) (items : List MenuItem),
    ∃ fuel result, addIntro fuel freeText host port items = some result ∧
      AddsLines freeText host port items result := by
  intro h
  obtain ⟨fuel, result, hresult, _⟩ := h [ch 'H', ch 'i'] [] [] []
  rw [addIntro_of_notMem (by decide)] at hresult
  exact absurd hresult (by simp)

/-! ## The menu of the engine -/

/-- The entries of a menu, all with the same host and port. -/
def GopherMenu.entries (host port : Str) (menu : GopherMenu) : List MenuItem :=
  (menu.intro.flatMap fun text => (text.splitOn (ch '\n')).map (info host port)) ++
    menu.items.map (⟨·, cstr host, cstr port⟩)

/-- The engine's texts are added as lines when each has a break and no NUL. -/
theorem addIntro_entries {freeText : Str} (hmem : ch '\n' ∈ freeText) (hzero : 0 ∉ freeText) (host port : Str)
    (menu : GopherMenu) : addIntro (freeText.splitOn (ch '\n')).length freeText host port (menu.entries host port) =
      some ((menu.addIntro freeText).entries host port) := by
  rw [addIntro_of_mem hmem, if_pos le_rfl, map_gopherInfo hzero]
  simp [GopherMenu.entries, GopherMenu.addIntro]

end Gopher

end MyServer
