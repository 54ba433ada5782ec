import MyServer.Http.FileSend

/-!
# The two ways to send a file

The copy to the socket does not know the last byte, so it sends what was asked for
only where the range goes on to the end of the file.
-/

namespace MyServer

/-- The bytes from `firstByte` up to `lastByte`. -/
def HttpRange.slice (r : HttpRange) (content : Str) : Str :=
  (content.take (r.lastByte content.length).toNat).drop r.rangeByteBegin.toNat

namespace SendContext

/-- Where the body goes. -/
def sent (td : SendContext) (s : Streams Unit) : Str :=
  if td.appendOutputs then s.outputData else s.channel

/-- Room for a byte at least in half of the buffer. -/
def Roomy (td : SendContext) : Prop := 2 ≤ td.realLength ∧ td.realLength < 2 ^ 31

/-- The body is the part of the file that the range names, as long as the header says. -/
def Serves (td : SendContext) (k : Kernel) (f : OpenFile) (r : HttpRange) (s : Streams Unit) :
    Prop :=
  ∃ s', sendBody td k f r s = .done s' ∧ td.sent s' = td.sent s ++ r.slice f.content ∧
    (r.slice f.content).length = r.bytesToSend f.size

end SendContext

/-! ## The copy to the socket -/

/-- The streams after a write to the socket. -/
def Streams.toSocket (s : Streams Unit) (bytes : Str) : Streams Unit :=
  { s with channel := s.channel ++ bytes }

theorem writeTo_socket {bytes : Str} (h : bytes.length < 2 ^ 31) (s : Streams Unit) :
    writeTo fileSinks .channel bytes s = (false, s.toSocket bytes) := by
  have hmod : bytes.length % 2 ^ 32 = bytes.length := Nat.mod_eq_of_lt (by omega)
  unfold writeTo fileSinks socketSink Streams.toSocket
  simp only [hmod, if_pos h, List.take_length]

section Loops

variable (k : Kernel) {f : OpenFile}

theorem take_drop_append (content : Str) (offset n : Nat) :
    (content.drop offset).take n ++ content.drop (offset + n) = content.drop offset := by
  rw [← List.drop_drop, List.take_append_drop]

theorem sendfileLoop_done {offset : Nat} (h : offset ≤ f.size) (s : Streams Unit) :
    sendfileLoop k f offset s = .done (s.toSocket (f.content.drop offset)) := by
  induction hleft : f.size - offset using Nat.strong_induction_on generalizing offset s with
  | _ left ih =>
    have hle := k.move_le offset (f.size - offset)
    have hpos := k.move_pos offset (f.size - offset)
    rw [sendfileLoop]
    split_ifs with hend hzero
    · have hall : (f.content.drop offset).take (k.move offset (f.size - offset)) =
          f.content.drop offset := by
        apply List.take_of_length_le
        rw [List.length_drop]
        unfold OpenFile.size at hend ⊢
        omega
      rw [hall]
      rfl
    · omega
    · rw [ih _ (by omega) (by omega) _ rfl]
      unfold Streams.toSocket
      simp only [List.append_assoc, take_drop_append]

theorem sendfileLoop_endless {offset : Nat} (h : f.size < offset) (s : Streams Unit) :
    sendfileLoop k f offset s = .endless := by
  have hle := k.move_le offset (f.size - offset)
  rw [sendfileLoop]
  rw [if_neg (by omega), if_pos (by omega)]

theorem copyLoop_done {realLength : Nat} (hpos : 0 < realLength) (hlt : realLength < 2 ^ 31)
    (offset : Nat) (s : Streams Unit) :
    copyLoop k f realLength offset s = .done (s.toSocket (f.content.drop offset)) := by
  induction hleft : f.size - offset using Nat.strong_induction_on generalizing offset s with
  | _ left ih =>
    have hle := k.move_le offset (min realLength (f.size - offset))
    have hmoved := k.move_pos offset (min realLength (f.size - offset))
    rw [copyLoop]
    split_ifs with hzero
    · have hnil : f.content.drop offset = [] := by
        apply List.drop_eq_nil_of_le
        unfold OpenFile.size at hzero hmoved hle
        omega
      unfold Streams.toSocket
      rw [hnil, List.append_nil]
    · have hshort : ((f.content.drop offset).take
          (k.move offset (min realLength (f.size - offset)))).length < 2 ^ 31 := by
        rw [List.length_take]
        omega
      rw [writeTo_socket hshort]
      dsimp only
      rw [if_neg (by simp), ih _ (by omega) _ _ rfl]
      unfold Streams.toSocket
      simp only [List.append_assoc, take_drop_append]

end Loops

/-! ## The pieces -/

section Pieces

variable {td : SendContext}

theorem append_piece {bytes : Str} (h : bytes.length < 2 ^ 31) (s : Streams Unit) :
    td.sent (appendFilteredToHTTPChannel fileSinks bytes td.chain td.appendOutputs false
      td.realLength s).streams = td.sent s ++ bytes := by
  have hno : td.chain.hasModifiersFilters = false := rfl
  unfold appendFilteredToHTTPChannel
  simp only [hno, Bool.not_false, if_true]
  unfold appendDataToHTTPChannel
  simp only [hno, Bool.false_eq_true, if_false]
  unfold SendContext.sent
  cases happend : td.appendOutputs with
  | true =>
    simp [writeTo, fileSinks, Sink.memory]
  | false =>
    simp only [Bool.false_eq_true, if_false, inOrder]
    by_cases hnil : bytes.length = 0
    · rw [if_neg (not_not.mpr hnil), List.length_eq_zero_iff.mp hnil, List.append_nil]
      rfl
    · rw [if_pos hnil]
      have hwrite : td.chain.write fileSinks bytes s = writeTo fileSinks .channel bytes s := by
        unfold FiltersChain.write SendContext.chain
        rw [happend]
        rfl
      rw [hwrite, writeTo_socket h]
      rfl

theorem flush_chain (s : Streams Unit) : (td.chain.flush fileSinks s).2 = s := rfl

/-- A read gives a first part of what is left, and gives nothing at the end only. -/
theorem read_part (k : Kernel) (f : OpenFile) (position : Nat) {n : Nat} (hn : 0 < n) :
    ∃ m, f.read k position n = some ((f.content.drop position).take m) ∧ m ≤ n ∧
      (m = 0 → f.content.drop position = []) := by
  unfold OpenFile.read
  cases f.kind with
  | cached => exact ⟨n, by rw [if_neg (by omega)]; rfl, le_rfl, by omega⟩
  | sendfile | readWrite =>
    refine ⟨_, rfl, le_trans (k.move_le _ _) (min_le_left _ _), fun hzero => ?_⟩
    have hmoved := k.move_pos position (min n (f.size - position))
    apply List.drop_eq_nil_of_le
    rw [Int.toNat_natCast] at hzero
    unfold OpenFile.size at hmoved hzero
    omega

/-- The loop sends up to `bytesToSend` bytes. -/
theorem sendRest_done (htd : td.Roomy) (k : Kernel) (f : OpenFile) (position bytesToSend : Nat)
    (s : Streams Unit) :
    ∃ s', sendRest td k f position bytesToSend s = .done s' ∧
      td.sent s' = td.sent s ++ (f.content.drop position).take bytesToSend := by
  obtain ⟨hlow, hhigh⟩ := htd
  induction bytesToSend using Nat.strong_induction_on generalizing position s with
  | _ bytesToSend ih =>
    rw [sendRest]
    split_ifs with hzero
    · exact ⟨s, by rw [flush_chain], by simp [hzero]⟩
    · obtain ⟨n, hread, hn, hprogress⟩ := read_part k f position
        (show 0 < min bytesToSend (td.realLength / 2) by omega)
      rw [hread]
      dsimp only
      have hlen : ((f.content.drop position).take n).length ≤ n := by
        rw [List.length_take]
        exact min_le_left _ _
      split_ifs with hend
      · have hnil : f.content.drop position = [] := by
          rw [List.length_take, Nat.min_eq_zero_iff] at hend
          exact hend.elim hprogress List.length_eq_zero_iff.mp
        exact ⟨s, by rw [flush_chain], by simp [hnil]⟩
      · obtain ⟨s', hs', hsent⟩ := ih (bytesToSend - ((f.content.drop position).take n).length)
          (by omega) (position + ((f.content.drop position).take n).length)
          (appendFilteredToHTTPChannel fileSinks ((f.content.drop position).take n) td.chain
            td.appendOutputs false td.realLength s).streams
        refine ⟨s', by exact_mod_cast hs', ?_⟩
        rw [hsent, append_piece (by omega), List.append_assoc]
        congr 1
        generalize hm : ((f.content.drop position).take n).length = m at hlen ⊢
        have htake : (f.content.drop position).take n = (f.content.drop position).take m := by
          rw [← hm, List.length_take, List.take_eq_take_iff]
          omega
        rw [htake, ← List.drop_drop, ← List.take_add]
        congr 1
        omega

end Pieces

/-! ## Which ranges both ways serve -/

namespace HttpRange

variable {r : HttpRange} {filesize : Nat}

theorem lastByte_le : r.lastByte filesize ≤ filesize := by
  unfold lastByte
  split_ifs <;> omega

theorem begin_le_lastByte (hr : r.Accepted) (h : r.rangeByteBegin ≤ filesize) :
    r.rangeByteBegin ≤ r.lastByte filesize := by
  have hordered := hr.ordered
  unfold lastByte
  split_ifs <;> omega

theorem bytesToSend_eq (hr : r.Accepted) (hsize : filesize < 2 ^ 63) (h0 : 0 ≤ r.rangeByteBegin)
    (h : r.rangeByteBegin ≤ filesize) :
    (r.bytesToSend filesize : Int) = r.lastByte filesize - r.rangeByteBegin := by
  have hle := @lastByte_le r filesize
  have hge := begin_le_lastByte hr h
  unfold bytesToSend
  omega

theorem slice_eq (hr : r.Accepted) {content : Str} (hsize : content.length < 2 ^ 63)
    (h0 : 0 ≤ r.rangeByteBegin) (h : r.rangeByteBegin ≤ content.length) :
    r.slice content =
      (content.drop r.rangeByteBegin.toNat).take (r.bytesToSend content.length) := by
  have heq := bytesToSend_eq hr hsize h0 h
  unfold slice
  rw [List.drop_take]
  congr 1
  omega

theorem slice_length (hr : r.Accepted) {content : Str} (hsize : content.length < 2 ^ 63)
    (h0 : 0 ≤ r.rangeByteBegin) (h : r.rangeByteBegin ≤ content.length) :
    (r.slice content).length = r.bytesToSend content.length := by
  have heq := bytesToSend_eq hr hsize h0 h
  have hle := @lastByte_le r content.length
  rw [slice_eq hr hsize h0 h, List.length_take, List.length_drop]
  omega

/-- A range that begins behind the end has a header that counts bytes which are not there. -/
theorem slice_behind (hr : r.Accepted) {content : Str} (hsize : content.length < 2 ^ 63)
    (h : (content.length : Int) < r.rangeByteBegin) :
    (r.slice content).length ≠ r.bytesToSend content.length := by
  have hordered := hr.ordered
  have hbegin := abs_lt.mp hr.begin_lt
  have hlast : r.lastByte content.length = content.length := by
    unfold lastByte
    split_ifs <;> omega
  unfold slice bytesToSend
  rw [hlast, List.length_drop, List.length_take]
  omega

/-- No end is given, or one at the last byte of the file or behind it. -/
def ReachesEnd (r : HttpRange) (filesize : Nat) : Prop :=
  r.rangeByteEnd = 0 ∨ (filesize : Int) ≤ r.rangeByteEnd + 1

theorem lastByte_eq_iff : r.lastByte filesize = filesize ↔ r.ReachesEnd filesize := by
  unfold lastByte ReachesEnd
  split_ifs with h
  · simp [h]
  · rw [min_eq_right_iff]
    tauto

theorem lastByte_of_not (h : ¬ r.ReachesEnd filesize) : r.lastByte filesize = r.rangeByteEnd + 1 := by
  unfold ReachesEnd at h
  unfold lastByte
  split_ifs <;> omega

end HttpRange

/-- The copy to the socket sends the bytes of the range: the range goes on to the end of the file,
and the length of what a cached file writes at once fits into an `int`; or it does not, and the
`int` happens to be the length of the range. -/
def CopySuits (f : OpenFile) (r : HttpRange) : Prop :=
  if f.kind = .cached then
    r.ReachesEnd f.size ∧ f.size - r.rangeByteBegin < 2 ^ 31 ∨
      ¬ r.ReachesEnd f.size ∧ r.rangeByteEnd + 1 - r.rangeByteBegin < 2 ^ 31 ∧
        (f.size - r.rangeByteBegin) % 2 ^ 32 = r.rangeByteEnd + 1 - r.rangeByteBegin
  else r.ReachesEnd f.size

section Paths

variable {k : Kernel} {f : OpenFile} {r : HttpRange}

/-- A range that begins inside the file is served by the loop. -/
theorem slow_serves {td : SendContext} (htd : td.Roomy) (hslow : (!td.appendOutputs && !td.ssl) = false)
    (hr : r.Accepted) (hsize : f.size < 2 ^ 63) (h0 : 0 ≤ r.rangeByteBegin)
    (h : r.rangeByteBegin ≤ f.size) (s : Streams Unit) : td.Serves k f r s := by
  have hseek : f.seek r.rangeByteBegin = some (r.rangeByteBegin.toNat : Int) := by
    rw [Int.toNat_of_nonneg h0]
    unfold OpenFile.seek
    cases f.kind with
    | cached =>
      dsimp only
      rw [if_neg (by omega)]
    | sendfile | readWrite =>
      dsimp only
      rw [if_neg (by omega)]
  obtain ⟨s', hs', hsent⟩ := sendRest_done htd k f r.rangeByteBegin.toNat (r.bytesToSend f.size) s
  refine ⟨s', ?_, ?_, r.slice_length hr hsize h0 h⟩
  · unfold sendBody
    rw [hslow, if_neg (by simp), hseek]
    exact hs'
  · rw [hsent, r.slice_eq hr hsize h0 h]
    rfl

/-- What the copy to the socket does with a range that begins inside the file. -/
theorem fastCopyToSocket_eq {realLength : Nat} (hlow : 0 < realLength) (hhigh : realLength < 2 ^ 31)
    (h0 : 0 ≤ r.rangeByteBegin) (h : r.rangeByteBegin ≤ f.size) (s : Streams Unit) :
    fastCopyToSocket k f realLength r.rangeByteBegin s =
      if f.kind = .cached then
        if (f.size - r.rangeByteBegin.toNat) % 2 ^ 32 < 2 ^ 31 then
          .done (s.toSocket ((f.content.drop r.rangeByteBegin.toNat).take
            ((f.size - r.rangeByteBegin.toNat) % 2 ^ 32)))
        else .thrown
      else .done (s.toSocket (f.content.drop r.rangeByteBegin.toNat)) := by
  unfold fastCopyToSocket
  cases hkind : f.kind with
  | cached =>
    dsimp only
    rw [if_neg (by omega), if_pos rfl]
    have hlen : (f.content.drop r.rangeByteBegin.toNat).length = f.size - r.rangeByteBegin.toNat :=
      List.length_drop
    unfold writeTo fileSinks socketSink
    simp only [hlen]
    by_cases hint : (f.size - r.rangeByteBegin.toNat) % 2 ^ 32 < 2 ^ 31
    · simp only [if_pos hint]
      rfl
    · simp only [if_neg hint]
      rfl
  | sendfile =>
    dsimp only
    rw [if_neg (by omega), sendfileLoop_done k (by omega)]
    rfl
  | readWrite =>
    dsimp only
    rw [if_neg (by omega), copyLoop_done k hlow hhigh]
    rfl

/-- What is sent of the file from the range on is the range if and only if it is as long. -/
theorem take_eq_slice_iff (hr : r.Accepted) (hsize : f.size < 2 ^ 63) (h0 : 0 ≤ r.rangeByteBegin)
    (h : r.rangeByteBegin ≤ f.size) {n : Nat} (hn : n ≤ f.size - r.rangeByteBegin.toNat) :
    (f.content.drop r.rangeByteBegin.toNat).take n = r.slice f.content ↔
      n = r.bytesToSend f.size := by
  have hbytes := r.bytesToSend_eq hr hsize h0 h
  have hle := @HttpRange.lastByte_le r f.size
  rw [r.slice_eq hr hsize h0 h, List.take_eq_take_iff, List.length_drop]
  change min n (f.size - _) = min (r.bytesToSend f.size) (f.size - _) ↔ _
  omega

theorem done_toSocket_iff {s : Streams Unit} {bytes wanted : Str} :
    (∃ s', Sending.done (s.toSocket bytes) = .done s' ∧ s'.channel = s.channel ++ wanted) ↔
      bytes = wanted := by
  constructor
  · rintro ⟨s', hs', hsent⟩
    rw [← Sending.done.inj hs'] at hsent
    exact List.append_cancel_left hsent
  · rintro rfl
    exact ⟨_, rfl, rfl⟩

theorem fast_serves_iff {realLength : Nat} (hlow : 0 < realLength) (hhigh : realLength < 2 ^ 31)
    (hr : r.Accepted) (hsize : f.size < 2 ^ 63) (h0 : 0 ≤ r.rangeByteBegin)
    (h : r.rangeByteBegin ≤ f.size) (s : Streams Unit) :
    SendContext.Serves ⟨false, false, realLength⟩ k f r s ↔ CopySuits f r := by
  have hlast := @HttpRange.lastByte_eq_iff r f.size
  have hbytes := r.bytesToSend_eq hr hsize h0 h
  have hmod : ((f.size - r.rangeByteBegin.toNat : ℕ) : Int) = f.size - r.rangeByteBegin := by omega
  have hserves : SendContext.Serves ⟨false, false, realLength⟩ k f r s ↔
      ∃ s', fastCopyToSocket k f realLength r.rangeByteBegin s = .done s' ∧
        s'.channel = s.channel ++ r.slice f.content :=
    ⟨fun ⟨s', hs', hsent, _⟩ => ⟨s', hs', hsent⟩,
      fun ⟨s', hs', hsent⟩ => ⟨s', hs', hsent, r.slice_length hr hsize h0 h⟩⟩
  rw [hserves, fastCopyToSocket_eq hlow hhigh h0 h]
  unfold CopySuits
  split_ifs with hkind hint
  · rw [done_toSocket_iff, take_eq_slice_iff hr hsize h0 h (Nat.mod_le _ _)]
    by_cases hend : r.ReachesEnd f.size
    · have := hlast.mpr hend
      simp only [hend, true_and, not_true, false_and, or_false]
      omega
    · have := r.lastByte_of_not hend
      simp only [hend, false_and, not_false_eq_true, true_and, false_or]
      omega
  · constructor
    · rintro ⟨s', hs', -⟩
      cases hs'
    · rintro (⟨-, hlt⟩ | ⟨-, hlt, heq⟩) <;> omega
  · have hall : f.content.drop r.rangeByteBegin.toNat =
        (f.content.drop r.rangeByteBegin.toNat).take (f.size - r.rangeByteBegin.toNat) := by
      rw [List.take_of_length_le (by rw [List.length_drop]; rfl)]
    rw [hall, done_toSocket_iff, take_eq_slice_iff hr hsize h0 h le_rfl, ← hlast]
    omega

/-- Both ways to send the body serve the range. -/
def PathsAgree (k : Kernel) (f : OpenFile) (r : HttpRange) (s : Streams Unit) : Prop :=
  ∀ td : SendContext, td.Roomy → td.Serves k f r s

theorem not_pathsAgree_before (h : r.rangeByteBegin < 0) (s : Streams Unit) :
    ¬ PathsAgree k f r s := by
  intro hagree
  obtain ⟨s', hfast, -⟩ := hagree ⟨false, false, 2⟩ ⟨le_rfl, by norm_num⟩
  obtain ⟨s'', hslow, -⟩ := hagree ⟨false, true, 2⟩ ⟨le_rfl, by norm_num⟩
  simp only [sendBody, Bool.not_false, Bool.and_self, if_true, Bool.not_true, Bool.and_false,
    Bool.false_eq_true, if_false, fastCopyToSocket, OpenFile.seek] at hfast hslow
  cases hkind : f.kind with
  | cached => simp [hkind, h] at hfast
  | sendfile | readWrite => simp [hkind, h] at hslow

end Paths

/-- A kernel that moves all that is there. -/
def wholeKernel : Kernel := ⟨fun _ n => n, fun _ n => le_refl n, fun _ _ h => h⟩

end MyServer
