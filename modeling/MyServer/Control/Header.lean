import MyServer.Http.AuthInside

/-!
# The header of a control request

`ControlHeader::parse_header` (control_header.cpp). The buffer is the memory from the first byte of the
request on, with the NUL that the thread puts behind what it read and what older requests left there.
-/

open MyServer.RequestHeader (getCharInString getCharInString_some getCharInString_front)
open MyServer.ResponseHeader (atoi)

namespace MyServer.Control

/-- control_errors.h. -/
inductive ControlError where
  | internal
  | auth
  | malformed
  | cmdNotFound
  | badLen
  | serverBusy
  | badVersion
  deriving DecidableEq, Repr

structure ControlHeader where
  command : Str
  cmdOptions : Str
  authLogin : Str
  authPassword : Str
  version : Str
  connection : Str
  length : Int
  deriving DecidableEq, Repr

/-- `reset` leaves `connection` as it finds it. -/
def ControlHeader.reset (connection : Str) : ControlHeader :=
  ⟨[], [], [], [], [], connection, 0⟩

/-- `myserver_strlcpy`, for a text that is not empty. -/
def strlcpy (src : Str) (size : Nat) : Str := cstr (src.take (size - 1))

def CR : Str := [ch '\r']

/-- The header with one more line, and how far the line goes. `none` is `CONTROL_MALFORMED`. -/
def parseLine (header : ControlHeader) (field : Str) : Option (ControlHeader × Nat) :=
  if ascii "/AUTH " <+: field then
    match getCharInString [ch ':'] (field.drop 6) 64 with
    | none => none
    | some len =>
      let offset := 6 + (len + 1)
      match getCharInString CR (field.drop offset) 64 with
      | none => none
      | some len' =>
        some ({ header with
                authLogin := strlcpy (field.drop 6) (min (len + 1) 64)
                authPassword := strlcpy (field.drop offset) (min (len' + 1) 64) }, offset + (len' + 2))
  else if ascii "/CONNECTION " <+: field then
    match getCharInString CR (field.drop 12) 32 with
    | none => none
    | some len =>
      some ({ header with connection := strlcpy (field.drop 12) (min (len + 1) 32) }, 12 + (len + 2))
  else if ascii "/LEN " <+: field then
    match getCharInString CR (field.drop 5) 32 with
    | none => none
    | some len =>
      some ({ header with length := atoi (strlcpy (field.drop 5) (min (len + 1) 12)) }, 5 + (len + 2))
  else
    (getCharInString CR field 32).map fun len => (header, len + 2)

/-- `incomplete` is the -1. -/
inductive Parsed where
  | ok (header : ControlHeader) (len : Nat)
  | incomplete
  | refused (errID : ControlError)
  deriving DecidableEq

/-- The lines behind the first, so many more of them at most. -/
def parseLines : Nat → ControlHeader → Nat → Str → Parsed
  | 0, _, _, _ => .refused .malformed
  | more + 1, header, offset, field =>
    if crlf <+: field then .ok header (offset + 2)
    else if getCharInString [ch ' '] field 32 = none then .incomplete
    else
      match parseLine header field with
      | none => .refused .malformed
      | some (header, len) => parseLines more header (offset + len) (field.drop len)

/-- The options of the first line, and where the next line begins. -/
def parseOptions (text : Str) : Str × Nat :=
  match getCharInString CR text 32 with
  | none => ([], 2)
  | some len => (strlcpy text (min (len + 1) 64), len + 2)

def parse_header (connection buffer : Str) (bufferlen : Nat) : Parsed :=
  if bufferlen = 0 then .refused .internal
  else
    match getCharInString [ch ' '] (buffer.drop 1) 32 with
    | none => .refused .malformed
    | some fieldLen =>
      let version := 1 + (fieldLen + 1)
      match getCharInString [ch ' ', ch '\r'] (buffer.drop version) 32 with
      | none => .refused .malformed
      | some versionLen =>
        let options := version + (versionLen + 1)
        let parsed := parseOptions (buffer.drop options)
        let header := { ControlHeader.reset connection with
          command := strlcpy (buffer.drop 1) (min (fieldLen + 1) 32)
          version := strlcpy (buffer.drop version) (min (versionLen + 1) 12)
          cmdOptions := parsed.1 }
        parseLines 19 header (options + parsed.2) (buffer.drop (options + parsed.2))

/-! ## What a byte behind the text can change -/

theorem getCharInString_lt {characters text : Str} {max n : Nat} (h : getCharInString characters text max = some n) :
    n < text.length := by
  obtain ⟨line, c, after, rfl, rfl, -, -⟩ := getCharInString_some h
  simp

theorem mem_of_getCharInString {c : Byte} {text : Str} {max n : Nat} (h : getCharInString [c] text max = some n) :
    c ∈ text := by
  induction text generalizing max n with
  | nil => exact absurd h nofun
  | cons b text ih =>
    cases max with
    | zero => exact absurd h nofun
    | succ max =>
      rw [getCharInString] at h
      split_ifs at h with hzero hmem
      · rw [List.mem_singleton.mp hmem]
        exact List.mem_cons_self
      · obtain ⟨m, hm, -⟩ := Option.map_eq_some_iff.mp h
        exact List.mem_cons_of_mem b (ih hm)

/-- Nothing is found behind a NUL. -/
theorem getCharInString_nul (characters text left : Str) (max : Nat) :
    getCharInString characters (text ++ 0 :: left) max = getCharInString characters text max := by
  induction text generalizing max with
  | nil => cases max <;> simp [getCharInString]
  | cons b text ih =>
    cases max with
    | zero => rfl
    | succ max => simp [getCharInString, ih]

/-- Nothing is found where one of the characters stood too far away. -/
theorem getCharInString_none {characters text : Str} {max : Nat} {c : Byte} (hc : c ∈ characters)
    (hmem : c ∈ text) (h : getCharInString characters text max = none) (behind : Str) :
    getCharInString characters (text ++ behind) max = none := by
  induction text generalizing max with
  | nil => exact absurd hmem List.not_mem_nil
  | cons b text ih =>
    cases max with
    | zero => rfl
    | succ max =>
      rw [List.cons_append]
      rw [getCharInString] at h ⊢
      split_ifs at h ⊢ with hzero hb
      · rfl
      · have hne : c ≠ b := fun heq => hb (heq ▸ hc)
        rw [ih ((List.mem_cons.mp hmem).resolve_left hne) (Option.map_eq_none_iff.mp h)]
        rfl

/-- A text that is looked for ends before a byte that it does not have. -/
theorem isPrefix_stop {p : Str} {c : Byte} (hp : c ∉ p) (text left : Str) : p <+: text ++ c :: left ↔ p <+: text := by
  refine ⟨fun h => ?_, fun h => h.trans (List.prefix_append _ _)⟩
  rcases List.prefix_or_prefix_of_prefix h (List.prefix_append text (c :: left)) with hle | ⟨q, rfl⟩
  · exact hle
  · cases q with
    | nil => simp
    | cons b q =>
      have hb := (List.prefix_cons_iff.mp ((List.prefix_append_right_inj text).mp h)).resolve_left nofun
      obtain ⟨_, heq, -⟩ := hb
      rw [(List.cons.inj heq).1] at hp
      exact absurd (List.mem_append_right text List.mem_cons_self) hp

theorem isPrefix_append {p text : Str} {c : Byte} (hp : c ∉ p) (hc : c ∈ text) (behind : Str) :
    p <+: text ++ behind ↔ p <+: text := by
  refine ⟨fun h => ?_, fun h => h.trans (List.prefix_append _ _)⟩
  rcases List.prefix_or_prefix_of_prefix h (List.prefix_append text behind) with hle | hle
  · exact hle
  · exact absurd (hle.subset hc) hp

theorem strlcpy_append {text : Str} {len : Nat} (h : len < text.length) (behind : Str) (size : Nat) :
    strlcpy (text ++ behind) (min (len + 1) size) = strlcpy text (min (len + 1) size) := by
  unfold strlcpy
  rw [List.take_append_of_le_length (by omega)]

theorem length_of_isPrefix {p text : Str} {n : Nat} (h : p <+: text) (hn : p.length = n) : n ≤ text.length :=
  hn ▸ h.length_le

/-! ## One line -/

theorem parseLine_mem {header header' : ControlHeader} {field : Str} {len : Nat}
    (h : parseLine header field = some (header', len)) : ch '\r' ∈ field := by
  have hin : ∀ {n max i}, getCharInString CR (field.drop n) max = some i → ch '\r' ∈ field :=
    fun h => List.mem_of_mem_drop (mem_of_getCharInString h)
  unfold parseLine at h
  split_ifs at h
  · split at h
    · exact absurd h nofun
    · dsimp only at h
      split at h
      · exact absurd h nofun
      · exact hin ‹_›
  · split at h
    · exact absurd h nofun
    · exact hin ‹_›
  · split at h
    · exact absurd h nofun
    · exact hin ‹_›
  · obtain ⟨i, hi, -⟩ := Option.map_eq_some_iff.mp h
    exact mem_of_getCharInString hi

/-- A line that is there is the same whatever is behind it. -/
theorem parseLine_append {header : ControlHeader} {field : Str} {read : ControlHeader × Nat}
    (h : parseLine header field = some read) (behind : Str) :
    parseLine header (field ++ behind) = some read := by
  have hcr := parseLine_mem h
  unfold parseLine at h ⊢
  have hsame : ∀ p : Str, ch '\r' ∉ p → (p <+: field ++ behind ↔ p <+: field) := fun _ hp =>
    isPrefix_append hp hcr behind
  simp only [hsame _ (by decide : ch '\r' ∉ ascii "/AUTH "), hsame _ (by decide : ch '\r' ∉ ascii "/LEN "),
    hsame _ (by decide : ch '\r' ∉ ascii "/CONNECTION ")]
  split_ifs at h ⊢ with hauth hconnection hlen
  · have hle : 6 ≤ field.length := length_of_isPrefix hauth rfl
    rw [List.drop_append_of_le_length hle]
    cases hcolon : getCharInString [ch ':'] (field.drop 6) 64 with
    | none =>
      rw [hcolon] at h
      exact absurd h nofun
    | some i =>
      have hi := getCharInString_lt hcolon
      rw [List.length_drop] at hi
      rw [getCharInString_front hcolon]
      rw [hcolon] at h
      dsimp only at h ⊢
      rw [List.drop_append_of_le_length (by omega)]
      cases hend : getCharInString CR (field.drop (6 + (i + 1))) 64 with
      | none =>
        rw [hend] at h
        exact absurd h nofun
      | some j =>
        rw [getCharInString_front hend]
        rw [hend] at h
        dsimp only at h ⊢
        rw [strlcpy_append (getCharInString_lt hcolon), strlcpy_append (getCharInString_lt hend), h]
  · have hle : 12 ≤ field.length := length_of_isPrefix hconnection rfl
    rw [List.drop_append_of_le_length hle]
    cases hend : getCharInString CR (field.drop 12) 32 with
    | none =>
      rw [hend] at h
      exact absurd h nofun
    | some i =>
      rw [getCharInString_front hend]
      rw [hend] at h
      dsimp only at h ⊢
      rw [strlcpy_append (getCharInString_lt hend), h]
  · have hle : 5 ≤ field.length := length_of_isPrefix hlen rfl
    rw [List.drop_append_of_le_length hle]
    cases hend : getCharInString CR (field.drop 5) 32 with
    | none =>
      rw [hend] at h
      exact absurd h nofun
    | some i =>
      rw [getCharInString_front hend]
      rw [hend] at h
      dsimp only at h ⊢
      rw [strlcpy_append (getCharInString_lt hend), h]
  · obtain ⟨i, hi, rfl⟩ := Option.map_eq_some_iff.mp h
    rw [getCharInString_front hi]
    rfl

/-- A line ends before a NUL. -/
theorem parseLine_nul (header : ControlHeader) (field left : Str) :
    parseLine header (field ++ 0 :: left) = parseLine header field := by
  unfold parseLine
  simp only [isPrefix_stop (by decide : (0 : Byte) ∉ ascii "/AUTH "), isPrefix_stop (by decide : (0 : Byte) ∉ ascii "/LEN "),
    isPrefix_stop (by decide : (0 : Byte) ∉ ascii "/CONNECTION "), getCharInString_nul]
  split_ifs with hauth hconnection hlen
  · have hle : 6 ≤ field.length := length_of_isPrefix hauth rfl
    rw [List.drop_append_of_le_length hle, getCharInString_nul]
    cases hcolon : getCharInString [ch ':'] (field.drop 6) 64 with
    | none => rfl
    | some i =>
      have hi := getCharInString_lt hcolon
      rw [List.length_drop] at hi
      dsimp only
      rw [List.drop_append_of_le_length (by omega), getCharInString_nul]
      cases hend : getCharInString CR (field.drop (6 + (i + 1))) 64 with
      | none => rfl
      | some j =>
        dsimp only
        rw [strlcpy_append (getCharInString_lt hcolon), strlcpy_append (getCharInString_lt hend)]
  · have hle : 12 ≤ field.length := length_of_isPrefix hconnection rfl
    rw [List.drop_append_of_le_length hle, getCharInString_nul]
    cases hend : getCharInString CR (field.drop 12) 32 with
    | none => rfl
    | some i =>
      dsimp only
      rw [strlcpy_append (getCharInString_lt hend)]
  · have hle : 5 ≤ field.length := length_of_isPrefix hlen rfl
    rw [List.drop_append_of_le_length hle, getCharInString_nul]
    cases hend : getCharInString CR (field.drop 5) 32 with
    | none => rfl
    | some i =>
      dsimp only
      rw [strlcpy_append (getCharInString_lt hend)]
  · rfl

/-! ## All lines -/

theorem two_le_length {b c : Byte} {text : Str} (hb : b ∈ text) (hc : c ∈ text) (hne : b ≠ c) : 2 ≤ text.length := by
  match text with
  | [] => exact absurd hb List.not_mem_nil
  | [a] => exact absurd ((List.mem_singleton.mp hb).trans (List.mem_singleton.mp hc).symm) hne
  | a :: a' :: text => simp

theorem parseLines_le {more offset len : Nat} {header header' : ControlHeader} {field : Str}
    (h : parseLines more header offset field = .ok header' len) : offset + 2 ≤ len := by
  induction more generalizing header offset field with
  | zero => exact absurd h nofun
  | succ more ih =>
    rw [parseLines] at h
    split_ifs at h
    · exact le_of_eq (Parsed.ok.inj h).2
    · split at h
      · exact absurd h nofun
      · have hle := ih h
        omega

theorem parseLines_mem {more offset len : Nat} {header header' : ControlHeader} {field : Str}
    (h : parseLines more header offset field = .ok header' len) :
    ch '\r' ∈ field ∧ len ≤ offset + field.length := by
  induction more generalizing header offset field with
  | zero => exact absurd h nofun
  | succ more ih =>
    rw [parseLines] at h
    split_ifs at h with hend
    · have hle : 2 ≤ field.length := length_of_isPrefix hend rfl
      exact ⟨hend.subset (by decide), by have := (Parsed.ok.inj h).2; omega⟩
    · split at h
      · exact absurd h nofun
      · obtain ⟨hmem, hle⟩ := ih h
        have hpos := List.length_pos_of_mem hmem
        rw [List.length_drop] at hpos hle
        exact ⟨List.mem_of_mem_drop hmem, by omega⟩

/-- A header that has ended is the same whatever is behind it. -/
theorem parseLines_append {more offset len : Nat} {header header' : ControlHeader} {field : Str}
    (h : parseLines more header offset field = .ok header' len) (behind : Str) :
    parseLines more header offset (field ++ behind) = .ok header' len := by
  induction more generalizing header offset field with
  | zero => exact absurd h nofun
  | succ more ih =>
    have hcr := (parseLines_mem h).1
    rw [parseLines] at h ⊢
    split_ifs at h with hend hspace
    · rw [if_pos (hend.trans (List.prefix_append _ _)), h]
    · split at h
      · exact absurd h nofun
      · rename_i line header₁ used hline
        obtain ⟨i, hi⟩ := Option.ne_none_iff_exists'.mp hspace
        have hpos := List.length_pos_of_mem (parseLines_mem h).1
        rw [List.length_drop] at hpos
        have hlen : crlf.length ≤ field.length := two_le_length hcr (mem_of_getCharInString hi) (by decide)
        have hnot : ¬ crlf <+: field ++ behind := fun hp =>
          hend (List.prefix_of_prefix_length_le hp (List.prefix_append _ _) hlen)
        rw [if_neg hnot, getCharInString_front hi, if_neg nofun, parseLine_append hline]
        dsimp only
        rw [List.drop_append_of_le_length (by omega), ih h]

/-- A header that ends before a NUL has nothing of what is behind the NUL. -/
theorem parseLines_nul {more offset len : Nat} {header header' : ControlHeader} {field left : Str}
    (h : parseLines more header offset (field ++ 0 :: left) = .ok header' len) (hle : len ≤ offset + field.length) :
    parseLines more header offset field = .ok header' len := by
  induction more generalizing header offset field with
  | zero => exact absurd h nofun
  | succ more ih =>
    rw [parseLines, getCharInString_nul, parseLine_nul] at h
    rw [parseLines]
    simp only [isPrefix_stop (by decide : (0 : Byte) ∉ crlf)] at h
    split_ifs at h ⊢
    · exact h
    · split at h
      · exact absurd h nofun
      · have hused := parseLines_le h
        rw [List.drop_append_of_le_length (by omega)] at h
        exact ih h (by rw [List.length_drop]; omega)

/-! ## The header -/

theorem parseOptions_append {text : Str} (hcr : ch '\r' ∈ text) (behind : Str) :
    parseOptions (text ++ behind) = parseOptions text := by
  unfold parseOptions
  cases hend : getCharInString CR text 32 with
  | none =>
    have hnone : getCharInString CR (text ++ behind) 32 = none :=
      getCharInString_none List.mem_cons_self hcr hend behind
    rw [hnone]
  | some i =>
    rw [getCharInString_front hend]
    dsimp only
    rw [strlcpy_append (getCharInString_lt hend)]

theorem parseOptions_nul (text left : Str) : parseOptions (text ++ 0 :: left) = parseOptions text := by
  unfold parseOptions
  rw [getCharInString_nul]
  cases hend : getCharInString CR text 32 with
  | none => rfl
  | some i =>
    dsimp only
    rw [strlcpy_append (getCharInString_lt hend)]

/-- All that is in a header that has ended. -/
theorem parse_header_ok {connection buffer : Str} {bufferlen len : Nat} {header : ControlHeader}
    (h : parse_header connection buffer bufferlen = .ok header len) :
    ∃ fieldLen versionLen,
      getCharInString [ch ' '] (buffer.drop 1) 32 = some fieldLen ∧
      getCharInString [ch ' ', ch '\r'] (buffer.drop (1 + (fieldLen + 1))) 32 = some versionLen ∧
      1 + (fieldLen + 1) + (versionLen + 1) + 4 ≤ len ∧ len ≤ buffer.length := by
  unfold parse_header at h
  split_ifs at h
  split at h
  · exact absurd h nofun
  rename_i fieldLen hfield
  dsimp only at h
  split at h
  · exact absurd h nofun
  rename_i versionLen hversion
  have hle := parseLines_le h
  obtain ⟨hmem, hlen⟩ := parseLines_mem h
  have hpos := List.length_pos_of_mem hmem
  rw [List.length_drop] at hlen hpos
  have hoptions : 2 ≤ (parseOptions (buffer.drop (1 + (fieldLen + 1) + (versionLen + 1)))).2 := by
    unfold parseOptions
    split
    · exact le_refl 2
    · exact Nat.le_add_left 2 _
  exact ⟨fieldLen, versionLen, hfield, hversion, by omega, by omega⟩

/-- **A header that has ended** is the same header whatever is behind it. -/
theorem parse_header_append {connection buffer : Str} {bufferlen len n : Nat} {header : ControlHeader}
    (h : parse_header connection buffer bufferlen = .ok header len) (hn : n ≠ 0) (behind : Str) :
    parse_header connection (buffer ++ behind) n = .ok header len := by
  obtain ⟨fieldLen, versionLen, hfield, hversion, hlo, hhi⟩ := parse_header_ok h
  unfold parse_header at h ⊢
  rw [if_neg hn, List.drop_append_of_le_length (by omega), getCharInString_front hfield]
  split_ifs at h
  rw [hfield] at h
  dsimp only at h ⊢
  rw [List.drop_append_of_le_length (by omega), getCharInString_front hversion]
  rw [hversion] at h
  dsimp only at h ⊢
  obtain ⟨hmem, hle⟩ := parseLines_mem h
  have hpos := List.length_pos_of_mem hmem
  rw [List.length_drop] at hpos
  have hcr : ch '\r' ∈ buffer.drop (1 + (fieldLen + 1) + (versionLen + 1)) := by
    rw [← List.drop_drop] at hmem
    exact List.mem_of_mem_drop hmem
  rw [@List.drop_append_of_le_length _ buffer behind (1 + (fieldLen + 1) + (versionLen + 1)) (by omega),
    parseOptions_append hcr, List.drop_append_of_le_length (by omega),
    strlcpy_append (getCharInString_lt hfield), strlcpy_append (getCharInString_lt hversion)]
  exact parseLines_append h behind

/-- **A header that ends before a NUL** has nothing of what is behind the NUL. -/
theorem parse_header_nul {connection buffer left : Str} {bufferlen len : Nat} {header : ControlHeader}
    (h : parse_header connection (buffer ++ 0 :: left) bufferlen = .ok header len) (hle : len ≤ buffer.length) :
    parse_header connection buffer bufferlen = .ok header len := by
  obtain ⟨fieldLen, versionLen, hfield, hversion, hlo, -⟩ := parse_header_ok h
  unfold parse_header at h ⊢
  split_ifs at h ⊢
  rw [List.drop_append_of_le_length (by omega), getCharInString_nul] at hfield
  rw [List.drop_append_of_le_length (by omega), getCharInString_nul] at hversion
  rw [List.drop_append_of_le_length (by omega), getCharInString_nul, hfield] at h
  rw [hfield]
  dsimp only at h ⊢
  rw [List.drop_append_of_le_length (by omega), getCharInString_nul, hversion] at h
  rw [hversion]
  dsimp only at h ⊢
  rw [@List.drop_append_of_le_length _ buffer (0 :: left) (1 + (fieldLen + 1) + (versionLen + 1)) (by omega),
    parseOptions_nul, strlcpy_append (getCharInString_lt hfield),
    strlcpy_append (getCharInString_lt hversion)] at h
  have hused := parseLines_le h
  rw [List.drop_append_of_le_length (by omega)] at h
  exact parseLines_nul h (by rw [List.length_drop]; omega)

theorem parseLine_length {header header' : ControlHeader} {field : Str} {len : Nat}
    (hlt : header.length < 2 ^ 31) (h : parseLine header field = some (header', len)) : header'.length < 2 ^ 31 := by
  unfold parseLine at h
  split_ifs at h
  · split at h
    · exact absurd h nofun
    · dsimp only at h
      split at h
      · exact absurd h nofun
      · obtain ⟨rfl, -⟩ := Prod.mk.inj (Option.some.inj h)
        exact hlt
  · split at h
    · exact absurd h nofun
    · obtain ⟨rfl, -⟩ := Prod.mk.inj (Option.some.inj h)
      exact hlt
  · split at h
    · exact absurd h nofun
    · obtain ⟨rfl, -⟩ := Prod.mk.inj (Option.some.inj h)
      exact BitVec.toInt_lt
  · obtain ⟨i, -, heq⟩ := Option.map_eq_some_iff.mp h
    obtain ⟨rfl, -⟩ := Prod.mk.inj heq
    exact hlt

theorem parseLines_length {more offset len : Nat} {header header' : ControlHeader} {field : Str}
    (hlt : header.length < 2 ^ 31) (h : parseLines more header offset field = .ok header' len) :
    header'.length < 2 ^ 31 := by
  induction more generalizing header offset field with
  | zero => exact absurd h nofun
  | succ more ih =>
    rw [parseLines] at h
    split_ifs at h
    · exact (Parsed.ok.inj h).1 ▸ hlt
    · split at h
      · exact absurd h nofun
      · rename_i hread
        exact ih (parseLine_length hlt hread) h

/-- The length is an `int`. -/
theorem parse_header_length {connection buffer : Str} {bufferlen len : Nat} {header : ControlHeader}
    (h : parse_header connection buffer bufferlen = .ok header len) : header.length < 2 ^ 31 := by
  unfold parse_header at h
  split_ifs at h
  split at h
  · exact absurd h nofun
  dsimp only at h
  split at h
  · exact absurd h nofun
  exact parseLines_length (by norm_num [ControlHeader.reset]) h

end MyServer.Control
