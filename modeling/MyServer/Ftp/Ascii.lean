import MyServer.Bytes
import MyServer.Lib.LineEnds

/-!
# Transfers in ASCII (ftp.cpp)

Both threads take a block, end it with a NUL and go through its lines. No transfer is aborted here, the sockets and
the file take what they are given, and a file gives a block in one read.
-/

namespace MyServer.FtpAscii

def CR : Byte := ch '\r'
def LF : Byte := ch '\n'

/-- `getEndLine` without a bound. -/
def getEndLine : Str → Option Nat
  | [] => none
  | c :: rest =>
    if c = 0 then none
    else if c = CR ∨ c = LF then some 0
    else (getEndLine rest).map (· + 1)

/-- What is behind the end of a line, a CR and an LF at most. -/
def skipEnd (pLine : Str) : Str :=
  let pLine := if pLine.head? = some CR then pLine.tail else pLine
  if pLine.head? = some LF then pLine.tail else pLine

theorem getEndLine_none {text : Str} (h : getEndLine text = none) (hnul : (0 : Byte) ∉ text) :
    CR ∉ text ∧ LF ∉ text := by
  induction text with
  | nil => simp
  | cons c rest ih =>
    obtain ⟨hc, hnul⟩ := not_or.mp (mt List.mem_cons.mpr hnul)
    rw [getEndLine, if_neg (Ne.symm hc)] at h
    split_ifs at h with hend
    obtain ⟨hcr, hlf⟩ := ih (Option.map_eq_none_iff.mp h) hnul
    rw [not_or] at hend
    simp [hcr, hlf, Ne.symm hend.1, Ne.symm hend.2]

theorem getEndLine_some {text : Str} {n : Nat} (h : getEndLine text = some n) :
    ∃ line c rest, text = line ++ c :: rest ∧ line.length = n ∧ (c = CR ∨ c = LF) ∧ CR ∉ line ∧ LF ∉ line := by
  induction text generalizing n with
  | nil => cases h
  | cons b text ih =>
    rw [getEndLine] at h
    split_ifs at h with hnul hend
    · obtain rfl := Option.some.inj h
      exact ⟨[], b, text, rfl, rfl, hend, by simp, by simp⟩
    · obtain ⟨m, hm, rfl⟩ := Option.map_eq_some_iff.mp h
      obtain ⟨line, c, rest, rfl, rfl, hc, hcr, hlf⟩ := ih hm
      rw [not_or] at hend
      refine ⟨b :: line, c, rest, rfl, rfl, hc, ?_, ?_⟩
      · simp [hcr, Ne.symm hend.1]
      · simp [hlf, Ne.symm hend.2]

theorem skipEnd_crlf (rest : Str) : skipEnd (CR :: LF :: rest) = rest := by simp [skipEnd]

theorem skipEnd_cr {rest : Str} (h : rest.head? ≠ some LF) : skipEnd (CR :: rest) = rest := by simp [skipEnd, h]

theorem skipEnd_lf (rest : Str) : skipEnd (LF :: rest) = rest := by simp [skipEnd, show LF ≠ CR by decide]

/-- One end of a line is replaced. -/
theorem translate_skipEnd {c : Byte} (hc : c = CR ∨ c = LF) (eol rest : Str) :
    LineEnds.translate CR LF eol (c :: rest) = eol ++ LineEnds.translate CR LF eol (skipEnd (c :: rest)) := by
  rcases hc with rfl | rfl
  · by_cases hrest : rest.head? = some LF
    · obtain ⟨rest, rfl⟩ := List.head?_eq_some_iff.mp hrest
      rw [skipEnd_crlf, LineEnds.translate_crlf]
    · rw [skipEnd_cr hrest, LineEnds.translate_cons fun h => hrest h.2, LineEnds.one_cr]
  · rw [skipEnd_lf, LineEnds.translate_cons fun h => absurd h.1 (by decide), LineEnds.one_lf]

theorem length_skipEnd {c : Byte} (hc : c = CR ∨ c = LF) (rest : Str) : (skipEnd (c :: rest)).length ≤ rest.length := by
  rcases hc with rfl | rfl
  · by_cases hrest : rest.head? = some LF
    · obtain ⟨rest, rfl⟩ := List.head?_eq_some_iff.mp hrest
      simp [skipEnd_crlf]
    · rw [skipEnd_cr hrest]
  · rw [skipEnd_lf]

theorem mem_of_mem_skipEnd {b : Byte} {text : Str} (h : b ∈ skipEnd text) : b ∈ text := by
  unfold skipEnd at h
  dsimp only at h
  split_ifs at h
  · exact List.mem_of_mem_tail (List.mem_of_mem_tail h)
  · exact List.mem_of_mem_tail h
  · exact List.mem_of_mem_tail h
  · exact h

/-- The loop over the lines of a block, up to its NUL. -/
def translateLines (eol pLine : Str) : Str :=
  match _h : getEndLine pLine with
  | none => pLine
  | some nLineLength => pLine.take nLineLength ++ eol ++ translateLines eol (skipEnd (pLine.drop nLineLength))
termination_by pLine.length
decreasing_by
  obtain ⟨line, c, rest, rfl, rfl, hc, -⟩ := getEndLine_some _h
  have := length_skipEnd hc rest
  rw [List.drop_left, List.length_append, List.length_cons]
  omega

theorem translateLines_eq {text : Str} (eol : Str) (hnul : (0 : Byte) ∉ text) :
    translateLines eol text = LineEnds.translate CR LF eol text := by
  fun_induction translateLines eol text with
  | case1 text h =>
    obtain ⟨hcr, hlf⟩ := getEndLine_none h hnul
    exact (LineEnds.translate_of_notMem hcr hlf).symm
  | case2 text n h ih =>
    obtain ⟨line, c, rest, rfl, rfl, hc, hcr, hlf⟩ := getEndLine_some h
    rw [List.drop_left] at ih
    have hrest : (0 : Byte) ∉ skipEnd (c :: rest) :=
      fun hmem => hnul (List.mem_append_right _ (mem_of_mem_skipEnd hmem))
    have huncut : ¬ LineEnds.Cut CR LF line (c :: rest) := fun hcut => hcr (List.mem_of_getLast? hcut.1)
    rw [List.drop_left, List.take_left, ih hrest, LineEnds.translate_append huncut,
      LineEnds.translate_of_notMem hcr hlf, translate_skipEnd hc, List.append_assoc]

/-! ## The threads -/

/-- The blocks of a file, each of a half of the buffer. -/
def blocks (content : Str) : List Str :=
  if h : content = [] then [] else content.take (1024 / 2) :: blocks (content.drop (1024 / 2))
termination_by content.length
decreasing_by
  have := List.length_pos_iff.mpr h
  rw [List.length_drop]
  omega

/-- What is put on the data connection. -/
def sendAsciiFile (content : Str) : Str := (blocks content).flatMap fun block => translateLines crlf (cstr block)

def hostEnd (win32 : Bool) : Str := if win32 then crlf else [LF]

/-- What is written to the file. -/
def receiveAsciiFile (win32 : Bool) (reads : List Str) : Str :=
  reads.flatMap fun read => translateLines (hostEnd win32) (cstr read)

/-- The file after that. One that is there is opened with its content, also by STOR. -/
def stored (bappend : Bool) (old written : Str) : Str :=
  if bappend then old ++ written else written ++ old.drop written.length

/-! ## What they translate -/

variable {eol : Str} {pieces : List Str}

theorem zero_notMem_translated (hzero : (0 : Byte) ∉ eol) :
    (0 : Byte) ∉ pieces.flatMap fun p => translateLines eol (cstr p) := by
  intro h
  obtain ⟨p, -, hp⟩ := List.mem_flatMap.mp h
  rw [translateLines_eq eol (zero_notMem_cstr p), LineEnds.mem_translate_iff (by decide) (by decide) hzero] at hp
  exact zero_notMem_cstr p hp

theorem pieces_iff (heol : eol ≠ []) (hzero : (0 : Byte) ∉ eol) (hpieces : ∀ p ∈ pieces, p ≠ []) :
    (pieces.flatMap fun p => translateLines eol (cstr p)) = LineEnds.translate CR LF eol pieces.flatten ↔
      (0 : Byte) ∉ pieces.flatten ∧ pieces.IsChain fun a b => ¬ LineEnds.Cut CR LF a b := by
  by_cases hnul : (0 : Byte) ∈ pieces.flatten
  · refine iff_of_false (fun heq => ?_) fun h => h.1 hnul
    rw [← LineEnds.mem_translate_iff (show (0 : Byte) ≠ CR by decide) (show (0 : Byte) ≠ LF by decide) hzero,
      ← heq] at hnul
    exact zero_notMem_translated hzero hnul
  · have hcstr : pieces.flatMap (fun p => translateLines eol (cstr p)) =
        pieces.flatMap (LineEnds.translate CR LF eol) := by
      apply List.flatMap_congr
      intro p hp
      rw [translateLines_eq eol (zero_notMem_cstr p), cstr_of_notMem fun h => hnul (List.mem_flatten_of_mem hp h)]
    rw [hcstr, LineEnds.flatMap_translate_iff (by decide) hpieces heol]
    exact (and_iff_right hnul).symm

theorem flatten_blocks (content : Str) : (blocks content).flatten = content := by
  fun_induction blocks content with
  | case1 => rfl
  | case2 content h ih => rw [List.flatten_cons, ih, List.take_append_drop]

theorem blocks_ne_nil {content : Str} : ∀ block ∈ blocks content, block ≠ [] := by
  fun_induction blocks content with
  | case1 => nofun
  | case2 content h ih =>
    refine List.forall_mem_cons.mpr ⟨fun hnil => ?_, ih⟩
    rw [List.take_eq_nil_iff] at hnil
    exact hnil.elim (by decide) h

/-- What `SendAsciiFile` should put on the connection. -/
def Sends (content : Str) : Prop := sendAsciiFile content = LineEnds.translate CR LF crlf content

/-- What `ReceiveAsciiFile` should write, and leave in the file. -/
structure Receives (win32 bappend : Bool) (old : Str) (reads : List Str) : Prop where
  written : receiveAsciiFile win32 reads = LineEnds.translate CR LF (hostEnd win32) reads.flatten
  file : stored bappend old (receiveAsciiFile win32 reads) =
    (if bappend then old else []) ++ LineEnds.translate CR LF (hostEnd win32) reads.flatten

/-- No piece ends with the CR of a CRLF. -/
def Uncut (pieces : List Str) : Prop := pieces.IsChain fun a b => ¬ LineEnds.Cut CR LF a b

theorem sends_iff (content : Str) : Sends content ↔ (0 : Byte) ∉ content ∧ Uncut (blocks content) := by
  have h := @pieces_iff crlf (blocks content) (by decide) (by decide) blocks_ne_nil
  rwa [flatten_blocks] at h

theorem receives_iff {win32 bappend : Bool} {old : Str} {reads : List Str} (hreads : ∀ read ∈ reads, read ≠ []) :
    Receives win32 bappend old reads ↔ (0 : Byte) ∉ reads.flatten ∧ Uncut reads ∧
      (bappend = true ∨ old.length ≤ (LineEnds.translate CR LF (hostEnd win32) reads.flatten).length) := by
  have hwritten := @pieces_iff (hostEnd win32) reads (by cases win32 <;> decide) (by cases win32 <;> decide) hreads
  rw [← and_assoc, Uncut, ← hwritten]
  have hfile : ∀ written : Str, stored bappend old written = (if bappend then old else []) ++ written ↔
      bappend = true ∨ old.length ≤ written.length := by
    intro written
    cases bappend <;> simp [stored]
  constructor
  · rintro ⟨hw, hf⟩
    rw [receiveAsciiFile] at hw
    rw [receiveAsciiFile, hw, hfile] at hf
    exact ⟨hw, hf⟩
  · rintro ⟨hw, hf⟩
    refine ⟨hw, ?_⟩
    rw [receiveAsciiFile, hw, hfile]
    exact hf

theorem uncut_of_notMem (h : CR ∉ pieces.flatten) : Uncut pieces := by
  induction pieces with
  | nil => exact List.isChain_nil
  | cons p pieces ih =>
    rw [List.flatten_cons, List.mem_append, not_or] at h
    exact List.isChain_cons.mpr ⟨fun q _ hcut => h.1 (List.mem_of_getLast? hcut.1), ih h.2⟩

/-- A text whose lines end in LF is sent whole, but its receiver may cut what is sent. -/
theorem restores_iff {text : Str} {reads : List Str} (hcr : CR ∉ text) (hreads : ∀ read ∈ reads, read ≠ [])
    (hsent : reads.flatten = sendAsciiFile text) :
    receiveAsciiFile false reads = text ↔ (0 : Byte) ∉ text ∧ Uncut reads := by
  by_cases hnul : (0 : Byte) ∈ text
  · refine iff_of_false (fun heq => ?_) fun h => h.1 hnul
    rw [← heq] at hnul
    exact zero_notMem_translated (by decide) hnul
  · have huncut : Uncut (blocks text) := uncut_of_notMem (by rwa [flatten_blocks])
    have htranslated : reads.flatten = LineEnds.translate CR LF crlf text :=
      hsent.trans ((sends_iff text).mpr ⟨hnul, huncut⟩)
    have hsame : LineEnds.translate CR LF (hostEnd false) reads.flatten = text := by
      rw [htranslated]
      exact LineEnds.translate_translate hcr
    have hwritten := @pieces_iff (hostEnd false) reads (by decide) (by decide) hreads
    rw [hsame, htranslated, LineEnds.mem_translate_iff (by decide) (by decide) (by decide)] at hwritten
    exact hwritten

/-- **Both threads translate line ends only, just when there is no NUL and no block ends inside a CRLF;** and a file
that is there is not longer than what is stored. -/
theorem ascii_iff (content : Str) (win32 bappend : Bool) (old : Str) (reads : List Str)
    (hreads : ∀ read ∈ reads, read ≠ []) :
    (Sends content ↔ (0 : Byte) ∉ content ∧ Uncut (blocks content)) ∧
    (Receives win32 bappend old reads ↔ (0 : Byte) ∉ reads.flatten ∧ Uncut reads ∧
      (bappend = true ∨ old.length ≤ (LineEnds.translate CR LF (hostEnd win32) reads.flatten).length)) ∧
    (CR ∉ content → reads.flatten = sendAsciiFile content →
      (receiveAsciiFile false reads = content ↔ (0 : Byte) ∉ content ∧ Uncut reads)) :=
  ⟨sends_iff content, receives_iff hreads, fun hcr hsent => restores_iff hcr hreads hsent⟩

theorem sendAsciiFile_hello : sendAsciiFile (ascii "hello\n") = ascii "hello\r\n" := by
  have huncut : Uncut (blocks (ascii "hello\n")) := uncut_of_notMem (by rw [flatten_blocks]; decide)
  exact ((sends_iff _).mpr ⟨by decide, huncut⟩).trans (by decide)

theorem ascii_hello :
    (Sends (ascii "hello\n") ↔ (0 : Byte) ∉ ascii "hello\n" ∧ Uncut (blocks (ascii "hello\n"))) ∧
    (Receives false true (ascii "Dear\n") [ascii "hello", ascii "\r\n"] ↔
      (0 : Byte) ∉ [ascii "hello", ascii "\r\n"].flatten ∧ Uncut [ascii "hello", ascii "\r\n"] ∧
        (true = true ∨ (ascii "Dear\n").length ≤ (LineEnds.translate CR LF (hostEnd false)
          [ascii "hello", ascii "\r\n"].flatten).length)) ∧
    (receiveAsciiFile false [ascii "hello", ascii "\r\n"] = ascii "hello\n" ↔
      (0 : Byte) ∉ ascii "hello\n" ∧ Uncut [ascii "hello", ascii "\r\n"]) := by
  obtain ⟨hsends, hreceives, hrestores⟩ :=
    ascii_iff (ascii "hello\n") false true (ascii "Dear\n") [ascii "hello", ascii "\r\n"] (by decide)
  exact ⟨hsends, hreceives, hrestores (by decide) (by rw [sendAsciiFile_hello]; decide)⟩

/-- A line end that the first block cuts. -/
theorem cut_at_block {front : Str} (h : front.length = 511) : ¬ Sends (front ++ crlf) := by
  rw [sends_iff]
  rintro ⟨-, huncut⟩
  have hcontent : front ++ crlf = (front ++ [CR]) ++ [LF] := by
    rw [List.append_assoc]
    rfl
  have hblock : (front ++ [CR]).length = 1024 / 2 := by rw [List.length_append, h]; rfl
  have hlast : blocks [LF] = [[LF]] := by simp [blocks]
  rw [hcontent, blocks, dif_neg (by simp), List.take_left' hblock, List.drop_left' hblock, hlast] at huncut
  simp [Uncut, LineEnds.Cut] at huncut

/-- And one that comes in two reads. -/
theorem not_ascii : ¬ Sends (List.replicate 511 (ch 'a') ++ crlf) ∧ ¬ Receives false false [] [[CR], [LF]] := by
  constructor
  · exact cut_at_block List.length_replicate
  · rw [receives_iff (by decide)]
    rintro ⟨-, huncut, -⟩
    simp [Uncut, LineEnds.Cut] at huncut

end MyServer.FtpAscii
