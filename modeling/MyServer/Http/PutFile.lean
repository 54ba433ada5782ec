import MyServer.Http.ResponseRoundTrip
import MyServer.Http.SendPaths
import MyServer.Http.SourceReads
import MyServer.Lib.Overwrite

/-!
# A body that is stored

`readPostData` (http_data_read.cpp) puts what the client sends into a new file, and `putFile` (http_file.cpp) copies
it to where the request says. A file that is there is written over, and is not cut.
-/

open MyServer.ResponseHeader (atoi)

namespace MyServer.Put

/-! ## Reading the body -/

/-- What `readPostData` looks at in the request. -/
structure PostData where
  contentLength : Str
  keepAlive : Bool
  contentEncoding : Option Str
  transferEncoding : Option Str

/-- -1, an error for the client, or 0 with what `inputData` holds then. -/
inductive PostResult
  | failed
  | error (httpRetCode : Nat)
  | read (inputData : Str) (conn : Conn)

/-- The loop for a body that is not chunked. `length` is what is still to come, where the client said it; what the
file takes of a piece is not looked at. `none` is out of fuel. -/
def lengthLoop (dim : Nat) (inputData : Sink) : Nat → Option Nat → Conn → Str → Option PostResult
  | 0, _, _, _ => none
  | fuel + 1, length, c, written =>
    let r := readContiguousPrimitivePostData c (length.elim dim (min dim))
    let nbr := r.bytes.length
    if length.any (· < nbr) then some (.error 400)
    else
      let length := length.map (· - nbr)
      let stored := if nbr = 0 then some 0 else inputData.write written r.bytes
      match stored with
      | none => some .failed
      | some nbw =>
        let written := written ++ r.bytes.take nbw
        if r.failed ∨ nbr = 0 ∨ length = some 0 then some (.read written r.conn)
        else lengthLoop dim inputData fuel length r.conn written

/-- `dim` bytes are in the auxiliary buffer, but for the last one. -/
def readPostData (p : PostData) (dim : Nat) (inputData : Sink) (c : Conn) : Option PostResult :=
  if p.contentLength ≠ [] ∧ atoi p.contentLength < 0 then some (.error 400)
  else if p.contentLength = [] ∧ p.keepAlive ∧ p.contentEncoding = some [] then some (.error 400)
  else
    match p.transferEncoding with
    | some encoding =>
      if encoding = ascii "chunked" then
        match readChunkedPostData ⟨dim, some inputData, 0⟩ c none with
        | none => none
        | some .failure => some .failed
        | some (.success s _) => some (.read s.written s.conn)
      else some (.error 501)
    | none =>
      lengthLoop dim inputData (c.unread.length + 1)
        (if p.contentLength = [] then none else some (atoi p.contentLength).toNat) c []

/-- What a client that said `length` has put into its body. -/
def bodyOf (length : Option Nat) (sent : Str) : Str := length.elim sent sent.take

/-- What comes behind it. -/
def behindBody (length : Option Nat) (sent : Str) : Str := length.elim [] sent.drop

section

variable {dim : Nat} {inputData : Sink} {c : Conn}

theorem unread_of_failed {n : Nat} (h : (readContiguousPrimitivePostData c n).failed = true) :
    (readContiguousPrimitivePostData c n).conn.unread = [] := by
  unfold readContiguousPrimitivePostData Conn.recv at h ⊢
  dsimp only at h ⊢
  by_cases hfull : (c.buffered.take n).length = n
  · rw [if_pos hfull] at h
    cases h
  · rw [if_neg hfull] at h ⊢
    by_cases hend : c.socket = [] ∧ c.broken = true
    · have hdrop : c.buffered.drop n = [] := by
        rw [List.length_take] at hfull
        rw [List.drop_eq_nil_iff]
        omega
      rw [if_pos hend]
      simp [Conn.unread, hdrop, hend.1]
    · rw [if_neg hend] at h
      cases h

/-- **The loop takes the body and nothing more**, in whatever pieces it comes. -/
theorem lengthLoop_eq (hdim : 0 < dim) (haccepts : inputData.Accepts) {fuel : Nat} {length : Option Nat}
    {written : Str} (hproper : Fragments.Proper c.socket) (hfuel : c.unread.length < fuel) :
    ∃ c', lengthLoop dim inputData fuel length c written = some (.read (written ++ bodyOf length c.unread) c') ∧
      c'.unread = behindBody length c.unread := by
  induction fuel generalizing length c written with
  | zero => exact absurd hfuel (Nat.not_lt_zero _)
  | succ fuel ih =>
    obtain ⟨hafter, hle, hne, -⟩ := read_after hproper (length.elim dim (min dim))
    have hsplit := read_unread c (length.elim dim (min dim))
    have hfailed := @unread_of_failed c (length.elim dim (min dim))
    rw [lengthLoop]
    generalize readContiguousPrimitivePostData c (length.elim dim (min dim)) = r at hafter hle hne hsplit hfailed
    have hwithin : length.any (· < r.bytes.length) = false := by
      cases length with
      | none => rfl
      | some l => simpa using hle.trans (min_le_right dim l)
    have hstored : (if r.bytes.length = 0 then some 0 else inputData.write written r.bytes) =
        some r.bytes.length := by
      split_ifs with hzero
      · rw [hzero]
      · exact haccepts written r.bytes
    dsimp only
    rw [hwithin, if_neg Bool.false_ne_true, hstored]
    dsimp only
    rw [List.take_length]
    by_cases hstop : r.failed = true ∨ r.bytes.length = 0 ∨ length.map (· - r.bytes.length) = some 0
    · have hall : r.bytes = bodyOf length c.unread ∧ r.conn.unread = behindBody length c.unread := by
        have hend : r.failed = true ∨ r.bytes = [] → length.elim dim (min dim) ≠ 0 → r.conn.unread = [] := by
          rintro (hfail | hnil) hn
          · exact hfailed hfail
          · have hunread : c.unread = [] := by
              by_contra hunread
              exact hne (Nat.pos_of_ne_zero hn) hunread hnil
            rw [hunread] at hsplit
            exact (List.append_eq_nil_iff.mp hsplit).2
        cases length with
        | none =>
          have hnil := hend (hstop.imp id fun h => List.length_eq_zero_iff.mp (h.resolve_right (by simp))) hdim.ne'
          rw [hnil, List.append_nil] at hsplit
          exact ⟨hsplit, hnil⟩
        | some l =>
          have hl : r.bytes.length ≤ l := hle.trans (min_le_right dim l)
          by_cases hlast : r.bytes.length = l
          · simp [bodyOf, behindBody, ← hsplit, ← hlast]
          · have hnil := hend (hstop.imp id fun h => List.length_eq_zero_iff.mp (h.resolve_right (by
              simp
              omega))) (by
              have hpos : 0 < l := by omega
              simp only [Option.elim_some]
              omega)
            rw [hnil, List.append_nil] at hsplit
            simp [bodyOf, behindBody, ← hsplit, hnil, List.take_of_length_le hl, List.drop_of_length_le hl]
      rw [if_pos hstop, ← hall.1]
      exact ⟨r.conn, rfl, hall.2⟩
    · obtain ⟨c', hloop, hrest⟩ := @ih r.conn (length.map (· - r.bytes.length)) (written ++ r.bytes) hafter.proper (by
        have hlength := congrArg List.length hsplit
        rw [List.length_append] at hlength
        omega)
      have hbody : r.bytes ++ bodyOf (length.map (· - r.bytes.length)) r.conn.unread = bodyOf length c.unread ∧
          behindBody (length.map (· - r.bytes.length)) r.conn.unread = behindBody length c.unread := by
        rw [← hsplit]
        cases length with
        | none => exact ⟨rfl, rfl⟩
        | some l =>
          have hl : r.bytes.length ≤ l := hle.trans (min_le_right dim l)
          simp [bodyOf, behindBody, List.take_append, List.drop_append, List.take_of_length_le hl,
            List.drop_of_length_le hl]
      rw [if_neg hstop]
      rw [List.append_assoc, hbody.1] at hloop
      exact ⟨c', hloop, hrest.trans hbody.2⟩

/-- What `readPostData` gives for a body whose length the client says, as far as an `int` holds it. -/
theorem readPostData_length {p : PostData} {n : Nat} (hlength : p.contentLength = decimal n) (hn : n < 2 ^ 31)
    (hencoding : p.transferEncoding = none) (hdim : 0 < dim) (haccepts : inputData.Accepts)
    (hproper : Fragments.Proper c.socket) :
    ∃ c', readPostData p dim inputData c = some (.read (c.unread.take n) c') ∧ c'.unread = c.unread.drop n := by
  have hatoi : atoi p.contentLength = n := by
    rw [hlength]
    exact ResponseHeader.atoi_decimalInt (i := n) ⟨by omega, by omega⟩
  have hne : p.contentLength ≠ [] := by
    rw [hlength]
    exact decimal_ne_nil n
  obtain ⟨c', hloop, hrest⟩ := @lengthLoop_eq dim inputData c hdim haccepts (c.unread.length + 1) (some n) [] hproper
    (Nat.lt_succ_self _)
  refine ⟨c', ?_, hrest⟩
  unfold readPostData
  rw [hatoi, if_neg (by omega), if_neg (fun h => hne h.1), hencoding, if_neg hne, Int.toNat_natCast]
  exact hloop

end

/-! ## Storing the file -/

/-- The loop over what `inputData` holds, where the disk takes all that it is given. -/
def copyLoop (realLength : Nat) (input content : Str) (position : Nat) : Str :=
  if realLength = 0 ∨ input = [] then content
  else
    copyLoop realLength (input.drop realLength) (Overwrite.write 0 content position (input.take realLength))
      (position + (input.take realLength).length)
termination_by input.length
decreasing_by
  rename_i h
  rw [not_or] at h
  have hpos := List.length_pos_iff.mpr h.2
  rw [List.length_drop]
  omega

/-- The code of the answer and the file afterwards. `file` is what was there, `firstByte` the beginning of the range
that the request has. -/
def putFile (mayWrite : Bool) (realLength : Nat) (firstByte : Int) (file : Option Str) (inputData : Str) :
    Nat × Option Str :=
  if !mayWrite then (401, file)
  else
    let successCode := if file.isSome then 200 else 201
    let content := file.getD []
    if firstByte < 0 then (500, some content)
    else (successCode, some (copyLoop realLength inputData content firstByte.toNat))

theorem copyLoop_eq {realLength : Nat} (hpos : 0 < realLength) {input : Str} (hne : input ≠ []) (content : Str)
    (position : Nat) : copyLoop realLength input content position = Overwrite.write 0 content position input := by
  induction hlength : input.length using Nat.strong_induction_on generalizing input content position with
  | _ n ih =>
    have hinput := List.length_pos_iff.mpr hne
    rw [copyLoop, if_neg (not_or.mpr ⟨hpos.ne', hne⟩)]
    by_cases hrest : input.drop realLength = []
    · rw [hrest, copyLoop, if_pos (Or.inr rfl), List.take_of_length_le (List.drop_eq_nil_iff.mp hrest)]
    · rw [ih (input.drop realLength).length (by rw [List.length_drop]; omega) hrest _ _ rfl, Overwrite.write_append,
        List.take_append_drop]

/-- From the first byte on, a file is the body and what was behind it. -/
theorem putFile_start {realLength : Nat} (hpos : 0 < realLength) (file : Option Str) (body : Str) :
    putFile true realLength 0 file body =
      (if file.isSome then 200 else 201, some (body ++ (file.getD []).drop body.length)) := by
  unfold putFile
  rw [if_neg (by simp)]
  dsimp only
  rw [if_neg (lt_irrefl 0), Int.toNat_zero]
  by_cases hbody : body = []
  · subst hbody
    rw [copyLoop, if_pos (Or.inr rfl)]
    simp
  · rw [copyLoop_eq hpos hbody, Overwrite.write_zero]

/-! ## What is read afterwards -/

/-- A request for the whole file. -/
def wholeFile : HttpRange := ⟨0, 0⟩

theorem wholeFile_accepted : wholeFile.Accepted where
  ordered := Or.inl rfl
  begin_lt := by simp [wholeFile]
  end_lt := by simp [wholeFile]

theorem serves_whole {td : SendContext} (htd : td.Roomy) (k : Kernel) {f : OpenFile} (hsize : f.size < 2 ^ 31)
    (s : Streams Unit) : td.Serves k f wholeFile s := by
  have hwide : f.size < 2 ^ 63 := by omega
  by_cases hslow : (!td.appendOutputs && !td.ssl) = false
  · exact slow_serves htd hslow wholeFile_accepted hwide (le_refl 0) (Int.natCast_nonneg _) s
  · obtain ⟨appendOutputs, ssl, realLength⟩ := td
    obtain ⟨rfl, rfl⟩ : appendOutputs = false ∧ ssl = false := by simpa using hslow
    have hlow : 0 < realLength := lt_of_lt_of_le two_pos htd.1
    rw [fast_serves_iff hlow htd.2 wholeFile_accepted hwide (le_refl 0) (Int.natCast_nonneg _)]
    unfold CopySuits
    split_ifs
    · refine Or.inl ⟨Or.inl rfl, ?_⟩
      simp only [wholeFile]
      omega
    · exact Or.inl rfl

theorem slice_whole (content : Str) : wholeFile.slice content = content := by
  simp [HttpRange.slice, HttpRange.lastByte, wholeFile]

section

variable {p : PostData} {dim realLength : Nat} {inputData : Sink} {c : Conn}

end

/-- `hello`, of which the first two bytes came with the header. -/
def helloBody : Conn := ⟨ascii "he", [ascii "llo", ascii "GET"], false⟩

def helloData : PostData := ⟨decimal 5, false, none, none⟩

theorem helloBody_proper : Fragments.Proper helloBody.socket := by
  simp [Fragments.Proper, helloBody]
  decide

def noStreams : Streams Unit := ⟨fun _ => (), [], [], ⟨[], 0, 0⟩⟩

end MyServer.Put
