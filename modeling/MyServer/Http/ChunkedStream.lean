import MyServer.Http.SourceReads

/-!
# Chunks one call at a time

`readChunkedPostData` is used in two ways: a request is read into a file by one call, the proxy makes a
call for each read and hands on what is in its buffer.
-/

namespace MyServer

/-- What a run has given: the bytes, and where the source then is. -/
def ChunkedResult.delivered : ChunkedResult → Option (Str × Conn)
  | .failure => none
  | .success s _ => some (s.written, s.conn)

/-! ## What is read gets shorter -/

theorem readSizeChars_length {c c' : Conn} {buffer chars : Str} {room : Nat}
    (h : readSizeChars c buffer room = some (chars, c')) : c'.unread.length < c.unread.length := by
  induction room generalizing c buffer with
  | zero =>
    unfold readSizeChars at h
    dsimp only at h
    have hlength := read_length c 1
    split_ifs at h with hone
    cases h
    omega
  | succ room ih =>
    unfold readSizeChars at h
    dsimp only at h
    have hlength := read_length c 1
    split at h
    · rename_i b hbytes
      rw [hbytes, List.length_singleton] at hlength
      split_ifs at h with hcr hfailed
      · cases h
        omega
      · cases h
        omega
      · have := ih h
        omega
    · exact absurd h nofun

theorem readSizeLine_length {c c' : Conn} {dataToRead : Nat} (h : readSizeLine c = some (dataToRead, c')) :
    c'.unread.length < c.unread.length := by
  unfold readSizeLine at h
  split at h
  · exact absurd h nofun
  · rename_i chars c₁ hchars
    have hlength := read_length c₁ 1
    have := readSizeChars_length hchars
    dsimp only at h
    split_ifs at h
    cases h
    omega

/-! ## One read of a payload -/

/-- A read of a payload of which `left` bytes are to come: what it takes, what is to come then, and the
source. `none` is -1. -/
def payloadRead (outBufferSize left : Nat) (c : Conn) : Option (Str × Nat × Conn) :=
  let r := readContiguousPrimitivePostData c (min outBufferSize left)
  if r.bytes.length = 0 then none
  else if r.failed then some (r.bytes, 0, r.conn)
  else
    let e : ReadResult :=
      if r.bytes.length = left then readContiguousPrimitivePostData r.conn 2 else ⟨[], false, r.conn⟩
    if e.failed then none else some (r.bytes, left - r.bytes.length, e.conn)

theorem payloadRead_spec {outBufferSize left : Nat} {c c' : Conn} {bs : Str} {k : Nat}
    (h : payloadRead outBufferSize left c = some (bs, k, c')) :
    bs.length ≠ 0 ∧ c'.unread.length < c.unread.length ∧ (k = 0 ∨ k + bs.length = left) := by
  have hlength := read_length c (min outBufferSize left)
  unfold payloadRead at h
  dsimp only at h
  split_ifs at h with hnone hfailed hend he he
  · cases h
    exact ⟨hnone, by omega, Or.inl rfl⟩
  · cases h
    have hcrlf := read_length (readContiguousPrimitivePostData c (min outBufferSize left)).conn 2
    exact ⟨hnone, by omega, Or.inl (by omega)⟩
  · cases h
    refine ⟨hnone, by dsimp only; omega, ?_⟩
    omega

/-! ## Both modes -/

section

variable {p : ChunkedCall} (haccepts : ∀ out ∈ p.out, out.Accepts)

def Progress.taken (s : Progress) (out : Option Sink) (bs : Str) (conn : Conn) : Progress where
  conn := conn
  outBuffer := bs
  outNbr := s.outNbr + bs.length
  written := if out.isSome then s.written ++ bs else s.written

include haccepts

theorem deliver_taken (s : Progress) (r : ReadResult) :
    deliver p s r = some (s.taken p.out r.bytes r.conn) := by
  unfold deliver Progress.taken
  cases hout : p.out with
  | none => rfl
  | some out =>
    dsimp only
    rw [haccepts out hout]
    simp

/-- **One turn of the payload loop.** -/
theorem readPayload_turn {dataToRead chunkNbr : Nat} (hlt : chunkNbr < dataToRead) (fuel : Nat)
    (s : Progress) : payloadRead p.outBufferSize (dataToRead - chunkNbr) s.conn = none ∧
      readPayload p dataToRead (fuel + 1) chunkNbr s = some .failed ∨
    ∃ bs k c', payloadRead p.outBufferSize (dataToRead - chunkNbr) s.conn = some (bs, k, c') ∧
      (k = 0 ∧ readPayload p dataToRead (fuel + 1) chunkNbr s = some (.left (s.taken p.out bs c')) ∨
        k = dataToRead - (chunkNbr + bs.length) ∧ readPayload p dataToRead (fuel + 1) chunkNbr s =
          if p.out.isNone then some (.returned k (s.taken p.out bs c'))
          else readPayload p dataToRead fuel (chunkNbr + bs.length) (s.taken p.out bs c')) := by
  unfold payloadRead
  rw [readPayload, if_pos hlt]
  set r := readContiguousPrimitivePostData s.conn (min p.outBufferSize (dataToRead - chunkNbr)) with hr
  set e : ReadResult := if r.bytes.length = dataToRead - chunkNbr then
    readContiguousPrimitivePostData r.conn 2 else ⟨[], false, r.conn⟩ with he
  have hend : (if chunkNbr + r.bytes.length = dataToRead then readContiguousPrimitivePostData r.conn 2
      else ⟨[], false, r.conn⟩) = e := by
    rw [he]
    by_cases h : chunkNbr + r.bytes.length = dataToRead
    · rw [if_pos h, if_pos (by omega)]
    · rw [if_neg h, if_neg (by omega)]
  dsimp only
  rw [deliver_taken haccepts]
  have hconn : (s.taken p.out r.bytes r.conn).conn = r.conn := rfl
  dsimp only
  rw [hconn, hend]
  by_cases hnone : r.bytes.length = 0
  · left
    rw [if_pos hnone, if_pos hnone]
    exact ⟨rfl, rfl⟩
  · rw [if_neg hnone, if_neg hnone]
    by_cases hfailed : r.failed
    · right
      rw [if_pos hfailed, if_pos hfailed]
      exact ⟨_, _, _, rfl, Or.inl ⟨rfl, rfl⟩⟩
    · rw [if_neg hfailed, if_neg hfailed]
      by_cases hcrlf : e.failed
      · left
        rw [if_pos hcrlf, if_pos hcrlf]
        exact ⟨rfl, rfl⟩
      · right
        rw [if_neg hcrlf, if_neg hcrlf]
        refine ⟨_, _, _, rfl, Or.inr ⟨by omega, ?_⟩⟩
        rw [Nat.sub_sub]
        rfl

end

/-! ## The proxy's calls -/

theorem size_length {c c₁ : Conn} {k dataToRead : Nat}
    (h : (if k ≠ 0 then some (k, c) else readSizeLine c) = some (dataToRead, c₁)) :
    c₁.unread.length ≤ c.unread.length := by
  split_ifs at h
  · cases h
    exact le_rfl
  · exact (readSizeLine_length h).le

/-- What a call of the proxy comes to: a size line if no bytes of a chunk are to come, and one read. -/
def callResult (bufferSize k : Nat) (c : Conn) : ChunkedResult :=
  match if k ≠ 0 then some (k, c) else readSizeLine c with
  | none => .failure
  | some (dataToRead, c₁) =>
    if dataToRead = 0 then .success ⟨c₁, [], 0, []⟩ (some 0)
    else
      match payloadRead bufferSize dataToRead c₁ with
      | none => .failure
      | some (bs, left, c') => .success ⟨c', bs, bs.length, []⟩ (some left)

/-- **A call of the proxy.** -/
theorem readChunkedPostData_call (bufferSize k : Nat) (c : Conn) :
    readChunkedPostData ⟨bufferSize, none, 1⟩ c (some k) = some (callResult bufferSize k c) := by
  rw [readChunkedPostData, readChunks, if_pos (Or.inr (by norm_num)), callResult]
  dsimp only [Option.getD_some]
  cases hsize : if k ≠ 0 then some (k, c) else readSizeLine c with
  | none => rfl
  | some size =>
    obtain ⟨dataToRead, c₁⟩ := size
    dsimp only
    by_cases hzero : dataToRead = 0
    · rw [if_pos hzero, if_pos hzero]
      rfl
    · rw [if_neg hzero, if_neg hzero]
      have hturn := @readPayload_turn ⟨bufferSize, none, 1⟩ nofun dataToRead 0 (by omega)
        c₁.unread.length ⟨c₁, [], 0, []⟩
      rw [Nat.sub_zero] at hturn
      obtain ⟨hread, hpayload⟩ | ⟨bs, k', c', hread, hpayload⟩ := hturn
      · rw [hpayload, hread]
      · obtain ⟨-, hlength, -⟩ := payloadRead_spec hread
        have hsource := size_length hsize
        dsimp only at hlength
        obtain ⟨m, hm⟩ := Nat.exists_eq_add_of_le' (by omega : 1 ≤ c.unread.length)
        rw [hread]
        obtain ⟨rfl, hpayload⟩ | ⟨-, hpayload⟩ := hpayload
        · have hstop : ¬ ((1 : Int) = 0 ∨ ((0 + 1 : Nat) : Int) < 1) := by norm_num
          rw [hpayload, hm]
          dsimp only
          rw [readChunks, if_neg hstop]
          dsimp only [Progress.taken]
          rw [Nat.zero_add]
          rfl
        · rw [hpayload, if_pos Option.isNone_none]
          dsimp only [Progress.taken]
          rw [Nat.zero_add]
          rfl

theorem readPayLoad_call (bufferSize fuel : Nat) (c : Conn) (k : Nat) (sent : Str) :
    readPayLoad bufferSize (fuel + 1) c k sent =
      (if k ≠ 0 then some (k, c) else readSizeLine c).bind fun size =>
        if size.1 = 0 then some (sent, size.2)
        else (payloadRead bufferSize size.1 size.2).bind fun r =>
          readPayLoad bufferSize fuel r.2.2 r.2.1 (sent ++ r.1) := by
  rw [readPayLoad, readChunkedPostData_call, callResult]
  cases hsize : if k ≠ 0 then some (k, c) else readSizeLine c with
  | none => rfl
  | some size =>
    obtain ⟨dataToRead, c₁⟩ := size
    dsimp only [Option.bind_some]
    by_cases hzero : dataToRead = 0
    · rw [if_pos hzero, if_pos hzero]
      rfl
    · rw [if_neg hzero, if_neg hzero]
      cases hread : payloadRead bufferSize dataToRead c₁ with
      | none => rfl
      | some r => exact if_neg (payloadRead_spec hread).1

/-! ## The single call -/

section

variable {bufferSize : Nat} {out : Sink}

/-- What comes after the payload loop of a call that writes to `out`. -/
def afterPayload (bufferSize : Nat) (out : Sink) (fuel n : Nat) : PayloadEnd → Option ChunkedResult
  | .failed => some .failure
  | .returned _ s => some (.success s none)
  | .left s => readChunks ⟨bufferSize, some out, 0⟩ none fuel n s

theorem readChunks_file (fuel n : Nat) (s : Progress) :
    readChunks ⟨bufferSize, some out, 0⟩ none (fuel + 1) n s =
      match readSizeLine s.conn with
      | none => some .failure
      | some (dataToRead, conn) =>
        if dataToRead = 0 then some (.success { s with conn } none)
        else (readPayload ⟨bufferSize, some out, 0⟩ dataToRead (conn.unread.length + 1) 0
          { s with conn }).bind (afterPayload bufferSize out fuel (n + 1)) := by
  rw [readChunks, if_pos (Or.inl rfl)]
  dsimp only [Option.getD_none, ne_eq, not_true]
  rw [if_neg (not_not.mpr rfl)]
  cases hsize : readSizeLine s.conn with
  | none => rfl
  | some size =>
    obtain ⟨dataToRead, conn⟩ := size
    dsimp only
    split_ifs with hzero
    · rfl
    · cases hpayload : readPayload ⟨bufferSize, some out, 0⟩ dataToRead (conn.unread.length + 1) 0
          { s with conn } with
      | none => rfl
      | some e => cases e <;> rfl

/-- What both uses give from here on, when `k` bytes of a chunk are to come. -/
structure Agrees (bufferSize : Nat) (out : Sink) (s : Progress) (k : Nat) (r : ChunkedResult) : Prop where
  stream : ∀ fuel, s.conn.unread.length < fuel → readPayLoad bufferSize fuel s.conn k s.written = r.delivered
  line : k = 0 → ∀ fuel n, s.conn.unread.length < fuel →
    readChunks ⟨bufferSize, some out, 0⟩ none fuel n s = some r
  payload : 0 < k → ∀ fuel n f dataToRead chunkNbr, s.conn.unread.length < fuel → s.conn.unread.length < f →
    dataToRead = chunkNbr + k →
      (readPayload ⟨bufferSize, some out, 0⟩ dataToRead f chunkNbr s).bind (afterPayload bufferSize out fuel n) =
        some r

theorem agrees_line {s : Progress} (ih : ∀ (s' : Progress) (k' : Nat), s'.conn.unread.length < s.conn.unread.length →
    ∃ r, Agrees bufferSize out s' k' r) : ∃ r, Agrees bufferSize out s 0 r := by
  cases hsize : readSizeLine s.conn with
  | none =>
    refine ⟨.failure, ?_, ?_, nofun⟩
    · intro fuel hfuel
      obtain ⟨fuel, rfl⟩ := Nat.exists_eq_add_of_le' (Nat.one_le_of_lt hfuel)
      rw [readPayLoad_call, if_neg (not_not.mpr rfl), hsize]
      rfl
    · intro _ fuel n hfuel
      obtain ⟨fuel, rfl⟩ := Nat.exists_eq_add_of_le' (Nat.one_le_of_lt hfuel)
      rw [readChunks_file, hsize]
  | some size =>
    obtain ⟨dataToRead, conn⟩ := size
    have hlength := readSizeLine_length hsize
    by_cases hzero : dataToRead = 0
    · refine ⟨.success { s with conn } none, ?_, ?_, nofun⟩
      · intro fuel hfuel
        obtain ⟨fuel, rfl⟩ := Nat.exists_eq_add_of_le' (Nat.one_le_of_lt hfuel)
        rw [readPayLoad_call, if_neg (not_not.mpr rfl), hsize, Option.bind_some, if_pos hzero]
        rfl
      · intro _ fuel n hfuel
        obtain ⟨fuel, rfl⟩ := Nat.exists_eq_add_of_le' (Nat.one_le_of_lt hfuel)
        rw [readChunks_file, hsize]
        exact if_pos hzero
    · obtain ⟨r, hstream, -, hfile⟩ := ih { s with conn } dataToRead hlength
      refine ⟨r, ?_, ?_, nofun⟩
      · intro fuel hfuel
        have hrun := hstream fuel (hlength.trans hfuel)
        obtain ⟨fuel, rfl⟩ := Nat.exists_eq_add_of_le' (Nat.one_le_of_lt hfuel)
        rw [readPayLoad_call, if_pos hzero] at hrun
        rw [readPayLoad_call, if_neg (not_not.mpr rfl), hsize]
        exact hrun
      · intro _ fuel n hfuel
        obtain ⟨fuel, rfl⟩ := Nat.exists_eq_add_of_le' (Nat.one_le_of_lt hfuel)
        rw [readChunks_file, hsize]
        dsimp only
        rw [if_neg hzero]
        have hrest : conn.unread.length < fuel := by omega
        exact hfile (by omega) fuel (n + 1) _ dataToRead 0 hrest (Nat.lt_succ_self _) (by omega)

theorem agrees_payload (haccepts : out.Accepts) {s : Progress} {k : Nat} (hk : k ≠ 0)
    (ih : ∀ (s' : Progress) (k' : Nat), s'.conn.unread.length < s.conn.unread.length →
      ∃ r, Agrees bufferSize out s' k' r) : ∃ r, Agrees bufferSize out s k r := by
  cases hread : payloadRead bufferSize k s.conn with
  | none =>
    refine ⟨.failure, ?_, fun h => absurd h hk, ?_⟩
    · intro fuel hfuel
      obtain ⟨fuel, rfl⟩ := Nat.exists_eq_add_of_le' (Nat.one_le_of_lt hfuel)
      rw [readPayLoad_call, if_pos hk, Option.bind_some, if_neg hk, hread]
      rfl
    · rintro hpos fuel n f dataToRead chunkNbr - hf rfl
      obtain ⟨f, rfl⟩ := Nat.exists_eq_add_of_le' (Nat.one_le_of_lt hf)
      have hturn := @readPayload_turn ⟨bufferSize, some out, 0⟩ (by simpa using haccepts) _ chunkNbr
        (Nat.lt_add_of_pos_right hpos) f s
      rw [Nat.add_sub_cancel_left, hread] at hturn
      obtain ⟨-, hpayload⟩ | ⟨_, _, _, habsurd, -⟩ := hturn
      · rw [hpayload]
        rfl
      · exact absurd habsurd nofun
  | some read =>
    obtain ⟨bs, k', c'⟩ := read
    obtain ⟨hbs, hlength, -⟩ := payloadRead_spec hread
    obtain ⟨r, hstream, hline, hfile⟩ := ih (s.taken (some out) bs c') k' hlength
    refine ⟨r, ?_, fun h => absurd h hk, ?_⟩
    · intro fuel hfuel
      obtain ⟨fuel, rfl⟩ := Nat.exists_eq_add_of_le' (Nat.one_le_of_lt hfuel)
      rw [readPayLoad_call, if_pos hk, Option.bind_some, if_neg hk, hread]
      exact hstream fuel (Nat.lt_of_lt_of_le hlength (Nat.le_of_lt_succ hfuel))
    · rintro hpos fuel n f dataToRead chunkNbr hfuel hf rfl
      obtain ⟨f, rfl⟩ := Nat.exists_eq_add_of_le' (Nat.one_le_of_lt hf)
      have hturn := @readPayload_turn ⟨bufferSize, some out, 0⟩ (by simpa using haccepts) _ chunkNbr
        (Nat.lt_add_of_pos_right hpos) f s
      rw [Nat.add_sub_cancel_left, hread] at hturn
      obtain ⟨habsurd, -⟩ | ⟨_, _, _, hsame, hturn⟩ := hturn
      · exact absurd habsurd nofun
      · cases hsame
        obtain ⟨rfl, hpayload⟩ | ⟨hleft, hpayload⟩ := hturn
        · rw [hpayload]
          exact hline rfl fuel n (hlength.trans hfuel)
        · rw [hpayload, if_neg (by simp)]
          by_cases hk' : k' = 0
          · obtain ⟨f, rfl⟩ := Nat.exists_eq_add_of_le' (by omega : 1 ≤ f)
            rw [readPayload, if_neg (by omega)]
            exact hline hk' fuel n (hlength.trans hfuel)
          · exact hfile (by omega) fuel n f _ _ (hlength.trans hfuel)
              (Nat.lt_of_lt_of_le hlength (Nat.le_of_lt_succ hf)) (by omega)

/-- Wherever a run of the proxy stands, the single call gives the same from there. -/
theorem stream_eq_file (haccepts : out.Accepts) (s : Progress) (k : Nat) : ∃ r, Agrees bufferSize out s k r := by
  induction hN : s.conn.unread.length using Nat.strong_induction_on generalizing s k with
  | _ N ih =>
    have hless : ∀ (s' : Progress) (k' : Nat), s'.conn.unread.length < s.conn.unread.length →
        ∃ r, Agrees bufferSize out s' k' r := fun s' k' hlt => ih _ (hN ▸ hlt) s' k' rfl
    by_cases hk : k = 0
    · subst hk
      exact agrees_line hless
    · exact agrees_payload haccepts hk hless

/-- **Streaming and writing to a stream** give the same, for any source, however it is cut: the run of
the proxy ends with the bytes that the single call has written, at the same place of the source, and it
fails where the single call does. -/
theorem readPayLoad_eq_written (haccepts : out.Accepts) (c : Conn) : ∃ r,
    readChunkedPostData ⟨bufferSize, some out, 0⟩ c none = some r ∧
      ∀ fuel, c.unread.length < fuel → readPayLoad bufferSize fuel c 0 [] = r.delivered := by
  obtain ⟨r, hstream, hfile, -⟩ := stream_eq_file haccepts ⟨c, [], 0, []⟩ 0
  exact ⟨r, hfile rfl _ 0 (Nat.lt_succ_self _), hstream⟩

end

/-- A chunk of five bytes through a buffer of two, cut inside the size line and inside the payload. -/
theorem readPayLoad_eq_written_hello : ∃ r,
    readChunkedPostData ⟨2, some Sink.memory, 0⟩ ⟨ascii "5", [ascii "\r\nhel", ascii "lo\r\n0\r\n"], false⟩
        none = some r ∧
      ∀ fuel, 13 < fuel →
        readPayLoad 2 fuel ⟨ascii "5", [ascii "\r\nhel", ascii "lo\r\n0\r\n"], false⟩ 0 [] = r.delivered :=
  readPayLoad_eq_written Sink.memory_accepts _

end MyServer
