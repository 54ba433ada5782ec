import MyServer.Bytes

/-!
# The lines of a header

A request and a response start alike: lines that end with CRLF, and an empty one. The scans read them in
memory that goes on behind them.
-/

namespace MyServer.HeaderLines

def LF : Byte := ch '\n'

/-- Neither ended nor cut by what ends a line. -/
def OneLine (s : Str) : Prop := ∀ b ∈ s, b ≠ ch '\r' ∧ b ≠ LF ∧ b ≠ 0

instance (s : Str) : Decidable (OneLine s) := inferInstanceAs (Decidable (∀ b ∈ s, _))

section

variable {a b s : Str}

theorem OneLine.append (ha : OneLine a) (hb : OneLine b) : OneLine (a ++ b) := by
  intro c hc
  rcases List.mem_append.mp hc with h | h
  · exact ha c h
  · exact hb c h

theorem OneLine.cons {c : Byte} (hc : c ≠ ch '\r' ∧ c ≠ LF ∧ c ≠ 0) (hs : OneLine s) : OneLine (c :: s) :=
  List.forall_mem_cons.mpr ⟨hc, hs⟩

theorem OneLine.line (h : OneLine s) : LF ∉ s ∧ (0 : Byte) ∉ s :=
  ⟨fun hmem => (h _ hmem).2.1 rfl, fun hmem => (h _ hmem).2.2 rfl⟩

end

/-! ### The version -/

theorem oneLine_version : OneLine (ascii "HTTP/1.1") := by decide

theorem space_notMem_version : ch ' ' ∉ ascii "HTTP/1.1" := by decide

/-- A request or status line and the fields: lines that are not empty, without the two bytes that the
scans look for. -/
structure Header where
  first : Str
  fields : List Str
  line : ∀ l ∈ first :: fields, l ≠ [] ∧ LF ∉ l ∧ (0 : Byte) ∉ l

namespace Header

variable (header : Header)

def lines : List Str := header.first :: header.fields

def bytes : Str := header.lines.flatMap (· ++ crlf) ++ crlf

end Header

/-- Nothing in these bytes stops the scan before the last three of them, which do. -/
def Inside : Str → Prop
  | x :: y :: z :: rest =>
    (rest = [] → x = LF ∧ z = LF) ∧
      (rest ≠ [] → x ≠ 0 ∧ (x = LF → y ≠ 0 ∧ y ≠ LF ∧ z ≠ LF) ∧ Inside (y :: z :: rest))
  | _ => False

/-- A text as memory, with anything behind it. -/
def memory (text : Str) (behind : Nat → Byte) (i : Nat) : Byte := text.getD i (behind i)

theorem inside_cons {x : Byte} {text : Str} (hzero : x ≠ 0) (hlf : x ≠ LF) (h : Inside text) :
    Inside (x :: text) := by
  match text, h with
  | y :: z :: [], h => exact h.elim
  | y :: z :: w :: rest, h => exact ⟨nofun, fun _ => ⟨hzero, fun heq => absurd heq hlf, h⟩⟩

theorem inside_line {l rest : Str} (hl : LF ∉ l ∧ (0 : Byte) ∉ l) (h : Inside (LF :: rest)) :
    Inside (l ++ crlf ++ rest) := by
  induction l with
  | nil => exact inside_cons (by decide) (by decide) h
  | cons c l ih =>
    have hc := List.mem_cons_self (a := c) (l := l)
    refine inside_cons ?_ ?_ (ih ⟨fun hm => hl.1 (List.mem_cons_of_mem c hm), fun hm =>
      hl.2 (List.mem_cons_of_mem c hm)⟩)
    · rintro rfl
      exact hl.2 hc
    · rintro rfl
      exact hl.1 hc

theorem inside_lines {lines : List Str} (hlines : ∀ l ∈ lines, l ≠ [] ∧ LF ∉ l ∧ (0 : Byte) ∉ l) :
    Inside (LF :: (lines.flatMap (· ++ crlf) ++ crlf)) := by
  induction lines with
  | nil => exact ⟨fun _ => ⟨rfl, rfl⟩, fun h => absurd rfl h⟩
  | cons l lines ih =>
    obtain ⟨⟨hne, hlf, hzero⟩, hlines⟩ := List.forall_mem_cons.mp hlines
    have hinside := inside_line ⟨hlf, hzero⟩ (ih hlines)
    rw [List.flatMap_cons, List.append_assoc]
    obtain ⟨c, l, rfl⟩ := List.exists_cons_of_ne_nil hne
    obtain ⟨hcz, hcl⟩ : c ≠ 0 ∧ c ≠ LF := by
      refine ⟨?_, ?_⟩ <;>
      · rintro rfl
        simp at hlf hzero
    cases l with
    | nil => exact ⟨nofun, fun _ => ⟨by decide, fun _ => ⟨hcz, hcl, by decide⟩, hinside⟩⟩
    | cons d l =>
      have hd : d ≠ LF := by
        rintro rfl
        simp at hlf
      refine ⟨fun h => ?_, fun _ => ⟨by decide, fun _ => ⟨hcz, hcl, hd⟩, hinside⟩⟩
      simp [crlf] at h

theorem Header.inside (header : Header) : Inside header.bytes := by
  obtain ⟨⟨-, hlf, hzero⟩, hfields⟩ := List.forall_mem_cons.mp header.line
  unfold Header.bytes Header.lines
  rw [List.flatMap_cons, List.append_assoc]
  exact inside_line ⟨hlf, hzero⟩ (inside_lines hfields)

theorem memory_mem {text : Str} {behind : Nat → Byte} {n : Nat} (hn : n ≤ text.length) :
    (∃ j < n, memory text behind j = LF) ↔ LF ∈ text.take n := by
  rw [List.mem_take_iff_getElem]
  unfold memory
  constructor
  · rintro ⟨j, hj, hlf⟩
    rw [List.getD_eq_getElem?_getD, List.getElem?_eq_getElem (by omega)] at hlf
    exact ⟨j, by omega, hlf⟩
  · rintro ⟨j, hj, hlf⟩
    refine ⟨j, by omega, ?_⟩
    rw [List.getD_eq_getElem?_getD, List.getElem?_eq_getElem (by omega)]
    exact hlf

theorem range_map_memory (text : Str) (behind : Nat → Byte) :
    (List.range text.length).map (memory text behind) = text := by
  apply List.ext_getElem
  · simp
  · intro i hi hi'
    rw [List.getElem_map, List.getElem_range, memory, List.getD_eq_getElem?_getD,
      List.getElem?_eq_getElem hi']
    rfl

namespace Header

variable (header : Header)

/-- What is counted of it: the lines, each with its CR. -/
def size : Nat := (header.lines.map fun l => l.length + 1).sum

theorem zero_notMem : (0 : Byte) ∉ header.bytes := by
  unfold bytes
  rw [List.mem_append, List.mem_flatMap, not_or]
  refine ⟨?_, by decide⟩
  rintro ⟨l, hl, hmem⟩
  rcases List.mem_append.mp hmem with h | h
  · exact (header.line l hl).2.2 h
  · exact absurd h (by decide)

theorem bytes_ne_nil : header.bytes ≠ [] := fun hnil => absurd (List.append_eq_nil_iff.mp hnil).2 nofun

theorem lines_end {lines : List Str} (hne : lines ≠ []) :
    ∃ front, lines.flatMap (· ++ crlf) = front ++ [LF] := by
  induction lines with
  | nil => exact absurd rfl hne
  | cons l lines ih =>
    by_cases hlines : lines = []
    · subst hlines
      exact ⟨l ++ [ch '\r'], by simp [crlf]; rfl⟩
    · obtain ⟨front, hfront⟩ := ih hlines
      exact ⟨l ++ crlf ++ front, by rw [List.flatMap_cons, hfront]; simp only [List.append_assoc]⟩

theorem countP_lines {lines : List Str} (hlines : ∀ l ∈ lines, LF ∉ l) :
    (lines.flatMap (· ++ crlf)).countP (· ≠ LF) = (lines.map fun l => l.length + 1).sum := by
  induction lines with
  | nil => rfl
  | cons l lines ih =>
    obtain ⟨hl, hlines⟩ := List.forall_mem_cons.mp hlines
    have hall : l.countP (· ≠ LF) = l.length := by
      rw [List.countP_eq_length]
      intro b hb
      simpa using fun heq : b = LF => hl (heq ▸ hb)
    rw [List.flatMap_cons, List.countP_append, List.countP_append, ih hlines, hall, List.map_cons,
      List.sum_cons]
    rfl

/-- The part of the header before the place where the scan stops. -/
theorem split : ∃ front, header.bytes = front ++ [LF, ch '\r', LF] ∧
    front.countP (· ≠ LF) = header.size ∧ (LF ∈ front ↔ header.fields ≠ []) := by
  obtain ⟨front, hfront⟩ := @lines_end header.lines (List.cons_ne_nil _ _)
  have hlf : ∀ l ∈ header.lines, LF ∉ l := fun l hl => (header.line l hl).2.1
  refine ⟨front, ?_, ?_, ?_⟩
  · unfold bytes
    rw [hfront, List.append_assoc]
    rfl
  · have hcount := countP_lines hlf
    rwa [hfront, List.countP_append, List.countP_singleton, if_neg (by simp), Nat.add_zero] at hcount
  · by_cases hfields : header.fields = []
    · refine iff_of_false ?_ (fun h => h hfields)
      have hsame : front ++ [LF] = (header.first ++ [ch '\r']) ++ [LF] := by
        rw [← hfront, lines, hfields]
        simp [crlf]
        rfl
      rw [List.append_cancel_right hsame, List.mem_append, not_or]
      exact ⟨hlf _ List.mem_cons_self, by decide⟩
    · obtain ⟨front', hfront'⟩ := lines_end hfields
      refine iff_of_true ?_ hfields
      have hsame : front ++ [LF] = (header.first ++ crlf ++ front') ++ [LF] := by
        rw [← hfront, lines, List.flatMap_cons, hfront']
        simp only [List.append_assoc]
      rw [List.append_cancel_right hsame, List.mem_append, List.mem_append]
      exact Or.inl (Or.inr (by decide))

theorem countP_bytes : header.bytes.countP (· ≠ LF) = header.size + 1 := by
  obtain ⟨front, hbytes, hcount, -⟩ := header.split
  rw [hbytes, List.countP_append, hcount]
  rfl

/-- No line is empty, so at most every third byte is an LF. -/
theorem length_le : 2 * header.bytes.length ≤ 3 * header.size + 4 := by
  have hlines : ∀ lines : List Str, (∀ l ∈ lines, l ≠ []) →
      2 * (lines.flatMap (· ++ crlf)).length ≤ 3 * (lines.map fun l => l.length + 1).sum := by
    intro lines
    induction lines with
    | nil => exact fun _ => le_rfl
    | cons l lines ih =>
      intro hl
      obtain ⟨hfirst, hrest⟩ := List.forall_mem_cons.mp hl
      have hpos := List.length_pos_iff.mpr hfirst
      have hcrlf : crlf.length = 2 := rfl
      have hle := ih hrest
      rw [List.flatMap_cons, List.length_append, List.length_append, List.map_cons, List.sum_cons, hcrlf]
      omega
  have hle := hlines header.lines fun l hl => (header.line l hl).1
  have hcrlf : crlf.length = 2 := rfl
  unfold bytes size
  rw [List.length_append, hcrlf]
  omega

end Header

end MyServer.HeaderLines
