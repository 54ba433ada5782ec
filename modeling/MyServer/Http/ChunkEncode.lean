import MyServer.Http.ChunkedDecode
import MyServer.Http.DataHandler

/-!
# Chunks written and read back

A buffer that is sent in chunks becomes one chunk with its size in hexadecimal
digits. An empty one becomes the chunk that ends the body.
-/

namespace MyServer

/-! ## The size -/

theorem digitChar_hex {d : Nat} (h : d < 16) :
    isHexDigit (ch d.digitChar) ∧ hexDigit (ch d.digitChar) = d := by
  interval_cases d <;> decide

theorem toHex_of_lt {n : Nat} (h : n < 16) : toHex n = [ch n.digitChar] := by
  unfold toHex
  rw [Nat.toDigits_of_lt_base h]
  rfl

theorem toHex_of_le {n : Nat} (h : 16 ≤ n) :
    toHex n = toHex (n / 16) ++ [ch (n % 16).digitChar] := by
  unfold toHex
  rw [Nat.toDigits_of_base_le (by norm_num) h, List.map_append]
  rfl

theorem hexValue_concat (s : Str) (b : Byte) : hexValue (s ++ [b]) = hexValue s * 16 + hexDigit b := by
  unfold hexValue
  rw [List.foldl_append]
  rfl

theorem toHex_hex (n : Nat) : (toHex n).all isHexDigit := by
  induction n using Nat.strong_induction_on with
  | _ n ih =>
    rcases Nat.lt_or_ge n 16 with h | h
    · simp [toHex_of_lt h, digitChar_hex h]
    · have hmod := (digitChar_hex (Nat.mod_lt n (show 0 < 16 by norm_num))).1
      rw [toHex_of_le h, List.all_append, ih (n / 16) (by omega)]
      simp [hmod]

/-- **The size that is written is the size that is read.** -/
theorem hexValue_toHex (n : Nat) : hexValue (toHex n) = n := by
  induction n using Nat.strong_induction_on with
  | _ n ih =>
    rcases Nat.lt_or_ge n 16 with h | h
    · rw [toHex_of_lt h]
      simp [hexValue, digitChar_hex h]
    · rw [toHex_of_le h, hexValue_concat, ih (n / 16) (by omega),
        (digitChar_hex (Nat.mod_lt n (show 0 < 16 by norm_num))).2]
      omega

theorem toHex_length_le {n k : Nat} (hk : 0 < k) (h : n < 16 ^ k) : (toHex n).length ≤ k := by
  unfold toHex
  rw [List.length_map]
  exact (Nat.length_toDigits_le_iff (by norm_num) hk).mpr h

/-- Nine digits of a number from `2 ^ 32` on are too many already. -/
theorem hexValue_take_toHex {n k : Nat} (h : 2 ^ 32 ≤ n) (hk : 9 ≤ k) :
    2 ^ 32 ≤ hexValue ((toHex n).take k) := by
  induction n using Nat.strong_induction_on with
  | _ n ih =>
    rcases Nat.lt_or_ge k (toHex n).length with hlt | hge
    · have h16 : 16 ≤ n := by omega
      rw [toHex_of_le h16] at hlt ⊢
      rw [List.length_append, List.length_singleton] at hlt
      rw [List.take_append_of_le_length (by omega)]
      apply ih (n / 16) (by omega)
      by_contra hsmall
      have := @toHex_length_le (n / 16) 8 (by norm_num) (by norm_num; omega)
      omega
    · rw [List.take_of_length_le hge, hexValue_toHex]
      exact h

/-- What the reader makes of the size of a buffer that is too long: the end of the body, or more
than there can be. -/
theorem sizeOf_toHex_of_le {n : Nat} (h : 2 ^ 31 ≤ n) :
    sizeOf (sizeChars (toHex n)) = 0 ∨
      (toHex n).length ≤ 19 ∧ 2 ^ 63 ≤ sizeOf (toHex n) := by
  have hno : ∀ b ∈ toHex n, decide (b ≠ ch '\r') = true := by
    intro b hb
    simpa using (hexDigit_ne (List.all_eq_true.mp (toHex_hex n) b hb)).2.1
  have htake : sizeChars (toHex n) = (toHex n).take 19 := by
    unfold sizeChars
    rw [List.takeWhile_eq_self_iff.mpr hno]
  have hhex := all_take (toHex_hex n) 19
  rw [htake]
  rcases Nat.lt_or_ge n (2 ^ 32) with hsmall | hbig
  · right
    have hlen := @toHex_length_le n 8 (by norm_num) (by norm_num; omega)
    refine ⟨by omega, ?_⟩
    rw [sizeOf_eq, cstr_of_hex (toHex_hex n), hexValue_toHex, if_pos ⟨toHex_hex n, hsmall⟩,
      BitVec.toInt_eq_toNat_cond, BitVec.toNat_ofNat, if_neg (by omega), BitVec.toNat_ofInt]
    omega
  · left
    have hvalue := @hexValue_take_toHex n 19 (by omega) (by norm_num)
    rw [sizeOf_eq, cstr_of_hex hhex, if_neg (by omega)]
    exact toULong_of_lt (by norm_num)

/-! ## Buffers as chunks -/

def encodeChunk (buffer : Str) : Str := toHex buffer.length ++ crlf ++ buffer ++ crlf

/-- What one chunk can hold. -/
def Sendable (buffer : Str) : Prop := buffer ≠ [] ∧ buffer.length < 2 ^ 31

instance (buffer : Str) : Decidable (Sendable buffer) := inferInstanceAs (Decidable (_ ∧ _))

theorem Sendable.toHex_short {buffer : Str} (h : Sendable buffer) :
    (toHex buffer.length).length ≤ 18 := by
  exact le_trans (toHex_length_le (k := 8) (by norm_num) (lt_trans h.2 (by norm_num))) (by norm_num)

def Chunk.ofBuffer (buffer : Str) (h : Sendable buffer) : Chunk where
  digits := toHex buffer.length
  ext := []
  payload := buffer
  hex := toHex_hex _
  short := h.toHex_short
  value := hexValue_toHex _
  extension := isExtension_nil
  payload_ne := h.1
  payload_lt := h.2

theorem Chunk.encode_ofBuffer (buffer : Str) (h : Sendable buffer) :
    (Chunk.ofBuffer buffer h).encode = encodeChunk buffer := by
  unfold Chunk.encode Chunk.line Chunk.ofBuffer encodeChunk
  rw [List.append_nil]

/-! ## Sending -/

section Send

variable {σ : Type} {sinks : Sinks}

theorem writeTo_channel (haccepts : sinks.channel.Accepts) (bytes : Str) (s : Streams σ) :
    writeTo sinks .channel bytes s = (false, { s with channel := s.channel ++ bytes }) := by
  unfold writeTo
  dsimp only
  rw [haccepts]
  simp

theorem inOrder_cons_of_ok {f : Attempt σ} {fs : List (Attempt σ)} {s s' : Streams σ}
    (h : f s = (false, s')) : inOrder (f :: fs) s = inOrder fs s' := by
  change (if (f s).1 then (true, (f s).2) else inOrder fs (f s).2) = inOrder fs s'
  rw [h]
  rfl

/-- The buffers one after the other, and then the terminator. -/
def sendBuffers (sinks : Sinks) (chain : FiltersChain σ) (buffers : List Str) : Attempt σ :=
  inOrder (buffers.map (appendDataToHTTPChannel sinks · chain false true) ++
    [writeTo sinks chain.stream (ascii "0\r\n\r\n")])

/-- **One buffer** puts one chunk on the channel. -/
theorem append_chunk (haccepts : sinks.channel.Accepts) {chain : FiltersChain σ}
    (hchain : ∀ f ∈ chain.filters, f.Transparent) (hstream : chain.stream = .channel)
    (buffer : Str) (s : Streams σ) :
    appendDataToHTTPChannel sinks buffer chain false true s =
      (false, { s with channel := s.channel ++ encodeChunk buffer }) := by
  have hnil : writeTo sinks chain.stream [] s = (false, s) := by
    rw [hstream, writeTo_channel haccepts, List.append_nil]
  have hflush := FiltersChain.flush_transparent hchain hnil
  unfold appendDataToHTTPChannel FiltersChain.write encodeChunk
  rw [FiltersChain.no_modifiers hchain, hstream]
  simp only [if_true, if_false, Bool.false_eq_true, inOrder, hflush, writeTo_channel haccepts]
  by_cases hbuffer : buffer.length = 0
  · rw [if_neg (not_not.mpr hbuffer), List.length_eq_zero_iff.mp hbuffer]
    simp
  · rw [if_pos hbuffer, writeThrough_transparent hchain, writeTo_channel haccepts]
    simp

theorem sendBuffers_eq (haccepts : sinks.channel.Accepts) {chain : FiltersChain σ}
    (hchain : ∀ f ∈ chain.filters, f.Transparent) (hstream : chain.stream = .channel)
    (buffers : List Str) (s : Streams σ) :
    sendBuffers sinks chain buffers s =
      (false, { s with channel :=
        s.channel ++ (buffers.flatMap encodeChunk ++ ascii "0\r\n\r\n") }) := by
  unfold sendBuffers
  induction buffers generalizing s with
  | nil =>
    rw [List.map_nil, List.nil_append, hstream, inOrder_cons_of_ok (writeTo_channel haccepts _ s)]
    rfl
  | cons b buffers ih =>
    rw [List.map_cons, List.cons_append,
      inOrder_cons_of_ok (append_chunk haccepts hchain hstream b s), ih]
    simp

end Send

/-! ## Reading more than there is -/

theorem read_keeps {c : Conn} (hproper : Fragments.Proper c.socket) (n : Nat) :
    (readContiguousPrimitivePostData c n).bytes ++
        (readContiguousPrimitivePostData c n).conn.unread = c.unread ∧
      Fragments.Proper (readContiguousPrimitivePostData c n).conn.socket ∧
      ((readContiguousPrimitivePostData c n).failed →
        (readContiguousPrimitivePostData c n).conn.unread = []) := by
  unfold readContiguousPrimitivePostData Conn.recv Conn.unread
  dsimp only
  split_ifs with hfull hbroken
  · refine ⟨?_, hproper, fun h => absurd h id⟩
    rw [← List.append_assoc, List.take_append_drop]
  · have hdrop : c.buffered.drop n = [] := by
      rw [List.length_take] at hfull
      exact List.drop_of_length_le (by omega)
    refine ⟨?_, hproper, fun _ => ?_⟩
    · rw [← List.append_assoc, List.take_append_drop]
    · rw [hdrop, hbroken.1]
      rfl
  · have hdrop : c.buffered.drop n = [] := by
      rw [List.length_take] at hfull
      exact List.drop_of_length_le (by omega)
    have htake : c.buffered.take n = c.buffered := by
      rw [List.length_take] at hfull
      exact List.take_of_length_le (by omega)
    refine ⟨?_, hproper.take _, fun h => absurd h id⟩
    dsimp only
    rw [hdrop, htake, List.nil_append, List.append_assoc, Fragments.take_flatten]

theorem readSizeLine_at_end {c : Conn} (hproper : Fragments.Proper c.socket)
    (hunread : c.unread = []) : readSizeLine c = none := by
  obtain ⟨hbytes, -, -⟩ := read_keeps hproper 1
  rw [hunread] at hbytes
  have hnil := (List.append_eq_nil_iff.mp hbytes).1
  unfold readSizeLine readSizeChars
  simp [hnil]

/-- The payload loop fails, or it leaves nothing, where the source has less than is to be read. -/
theorem readPayload_overrun {p : ChunkedCall} {out : Sink} (hout : p.out = some out)
    (haccepts : out.Accepts) {dataToRead : Nat} {fuel chunkNbr : Nat} {s : Progress}
    (hproper : Fragments.Proper s.conn.socket)
    (hlong : chunkNbr + s.conn.unread.length < dataToRead) :
    readPayload p dataToRead fuel chunkNbr s = none ∨
      readPayload p dataToRead fuel chunkNbr s = some .failed ∨
      ∃ s', readPayload p dataToRead fuel chunkNbr s = some (.left s') ∧
        Fragments.Proper s'.conn.socket ∧ s'.conn.unread = [] := by
  induction fuel generalizing chunkNbr s with
  | zero => exact Or.inl rfl
  | succ fuel ih =>
    obtain ⟨hkeeps, hproper', hend⟩ :=
      read_keeps hproper (min p.outBufferSize (dataToRead - chunkNbr))
    cases hr : readContiguousPrimitivePostData s.conn
      (min p.outBufferSize (dataToRead - chunkNbr)) with
    | mk bs failed c' =>
      rw [hr] at hkeeps hproper' hend
      dsimp only at hkeeps hproper' hend
      have hlen := congrArg List.length hkeeps
      rw [List.length_append] at hlen
      have hdeliver := deliver_accepts hout haccepts s ⟨bs, failed, c'⟩
      by_cases hnone : bs = []
      · right; left
        rw [readPayload, if_pos (by omega), hr, hnone]
        rfl
      · cases failed with
        | true =>
          have hpos := List.length_pos_iff.mpr hnone
          refine Or.inr (Or.inr ⟨⟨c', bs, s.outNbr + bs.length, s.written ++ bs⟩, ?_, hproper',
            hend rfl⟩)
          rw [readPayload, if_pos (by omega), hr]
          dsimp only
          rw [if_neg (by omega), hdeliver]
          rfl
        | false =>
          rw [readPayload_round (by omega) hr hnone hdeliver (if_neg (by omega)), hout]
          apply ih hproper'
          dsimp only
          omega

/-- A size line that asks for more than there is ends the call without success. -/
theorem readChunks_overrun {p : ChunkedCall} {out : Sink} (hout : p.out = some out)
    (haccepts : out.Accepts) (hmax : p.maxChunks = 0) {fuel n : Nat} {s : Progress}
    {dataToRead : Nat} {conn : Conn} (hsize : readSizeLine s.conn = some (dataToRead, conn))
    (hproper : Fragments.Proper conn.socket) (hlong : conn.unread.length < dataToRead)
    (s' : Progress) (remaining : Option Nat) :
    readChunks p none fuel n s ≠ some (.success s' remaining) := by
  cases fuel with
  | zero => simp [readChunks]
  | succ fuel =>
    have hne : dataToRead ≠ 0 := by omega
    unfold readChunks
    rw [if_pos (Or.inl hmax)]
    simp only [Option.getD_none, ne_eq, not_true_eq_false, if_false, hsize, hne]
    rcases @readPayload_overrun p out hout haccepts dataToRead (conn.unread.length + 1) 0
      { s with conn } hproper (by dsimp only; omega) with h | h | ⟨s₂, h, hproper₂, hend⟩
    · simp [h]
    · simp [h]
    · rw [h]
      dsimp only
      cases fuel with
      | zero => simp [readChunks]
      | succ fuel =>
        unfold readChunks
        rw [if_pos (Or.inl hmax)]
        simp [readSizeLine_at_end hproper₂ hend]

/-! ## Reading what was sent -/

theorem exists_chunks {buffers : List Str} (h : ∀ b ∈ buffers, Sendable b) :
    ∃ chunks : List Chunk, chunks.map Chunk.encode = buffers.map encodeChunk ∧
      chunks.map Chunk.payload = buffers ∧ ∀ chunk ∈ chunks, chunk.ext = [] := by
  induction buffers with
  | nil => exact ⟨[], rfl, rfl, fun _ h => absurd h List.not_mem_nil⟩
  | cons b buffers ih =>
    obtain ⟨chunks, hencode, hpayload, hext⟩ := ih fun a ha => h a (List.mem_cons_of_mem b ha)
    refine ⟨Chunk.ofBuffer b (h b List.mem_cons_self) :: chunks, ?_, ?_, fun chunk hmem => ?_⟩
    · rw [List.map_cons, List.map_cons, Chunk.encode_ofBuffer, hencode]
    · rw [List.map_cons, hpayload]
      rfl
    · rcases List.mem_cons.mp hmem with rfl | hmem
      · rfl
      · exact hext chunk hmem

/-- A size line that ends every successful call, and the call before it writes anything more. -/
def Stops (line tail : Str) : Prop :=
  sizeOf (sizeChars line) = 0 ∨
    ∀ c : Conn, Fragments.Proper c.socket → c.unread = line ++ crlf ++ tail →
      ∃ n c', readSizeLine c = some (n, c') ∧ Fragments.Proper c'.socket ∧ c'.unread.length < n

/-- **Before such a line** only payload is written, in order. -/
theorem readChunks_written {p : ChunkedCall} {out : Sink} (hout : p.out = some out)
    (haccepts : out.Accepts) (hsize : 0 < p.outBufferSize) (hmax : p.maxChunks = 0)
    {line tail : Str} (hstops : Stops line tail) {chunks : List Chunk}
    (hext : ∀ chunk ∈ chunks, chunk.ext = []) {fuel n : Nat} {s s' : Progress}
    {remaining : Option Nat} (hproper : Fragments.Proper s.conn.socket)
    (hunread : s.conn.unread = chunks.flatMap Chunk.encode ++ (line ++ crlf ++ tail))
    (hrun : readChunks p none fuel n s = some (.success s' remaining)) :
    ∃ written, written <+: chunks.flatMap Chunk.payload ∧ s'.written = s.written ++ written := by
  induction chunks generalizing fuel n s with
  | nil =>
    cases fuel with
    | zero => simp [readChunks] at hrun
    | succ fuel =>
      rcases hstops with hzero | hlong
      · obtain ⟨c', hstop, -⟩ :=
          @readChunks_stops p none rfl n (Or.inl hmax) s hproper line tail hunread hzero fuel
        obtain ⟨rfl, -⟩ := ChunkedResult.success.inj (Option.some.inj (hstop.symm.trans hrun))
        exact ⟨[], List.prefix_refl _, (List.append_nil _).symm⟩
      · obtain ⟨k, c', hread, hproper', hlt⟩ := hlong s.conn hproper hunread
        exact absurd hrun (readChunks_overrun hout haccepts hmax hread hproper' hlt _ _)
  | cons chunk chunks ih =>
    cases fuel with
    | zero => simp [readChunks] at hrun
    | succ fuel =>
      rw [List.flatMap_cons, List.append_assoc] at hunread
      obtain ⟨s₂, henter, hwritten, hproper₂, hend⟩ := @readChunks_chunk p out hout haccepts hsize
        none rfl n (Or.inl hmax) s hproper chunk (hext chunk List.mem_cons_self) _ hunread fuel
      rw [henter] at hrun
      rw [List.flatMap_cons]
      rcases hend with ⟨-, hunread₂, -⟩ | ⟨-, hunread₂⟩
      · obtain ⟨written, hprefix, heq⟩ :=
          ih (fun d hd => hext d (List.mem_cons_of_mem chunk hd)) hproper₂ hunread₂ hrun
        refine ⟨chunk.payload ++ written, ?_, ?_⟩
        · exact (List.prefix_append_right_inj _).mpr hprefix
        · rw [heq, hwritten, List.append_assoc]
      · cases fuel with
        | zero => simp [readChunks] at hrun
        | succ fuel =>
          obtain ⟨c₃, hstop, -⟩ := @readChunks_after_cut p none rfl (n + 1) (Or.inl hmax) line tail
            chunks s₂ hproper₂ hunread₂ fuel
          obtain ⟨rfl, -⟩ := ChunkedResult.success.inj (Option.some.inj (hstop.symm.trans hrun))
          exact ⟨chunk.payload, List.prefix_append _ _, hwritten⟩

/-- The size line of a buffer that is no chunk stops the reader. -/
theorem stops_of_not_sendable {buffer tail : Str} (h : ¬ Sendable buffer)
    (htail : tail.length < 2 ^ 63) : Stops (toHex buffer.length) tail := by
  by_cases hnil : buffer = []
  · left
    rw [hnil]
    decide
  · have hlen : 2 ^ 31 ≤ buffer.length := by
      by_contra hlt
      exact h ⟨hnil, by omega⟩
    rcases sizeOf_toHex_of_le hlen with hzero | ⟨hshort, hbig⟩
    · exact Or.inl hzero
    · right
      intro c hproper hunread
      have hcr : ch '\r' ∉ toHex buffer.length := by
        intro hmem
        exact (hexDigit_ne (List.all_eq_true.mp (toHex_hex _) _ hmem)).2.1 rfl
      obtain ⟨c', hread, hunread', hproper', -⟩ := readSizeLine_eq (b := ch '\r') (d := ch '\n')
        hcr (Or.inl ⟨rfl, hshort⟩) hproper (u := tail) (by rw [hunread, List.append_assoc]; rfl)
      exact ⟨_, c', hread, hproper', by rw [hunread']; omega⟩

/-! ## The round trip -/

/-- No fragment ends between the two bytes that end a chunk before more payload. -/
def Unsplit (c : Conn) (buffers : List Str) : Prop :=
  ∀ k, 0 < k → (buffers.drop k).flatten ≠ [] →
    ¬ c.CutAt (((buffers.take k).flatMap encodeChunk).length - 1)

/-- The buffers that are not empty come first, and each is shorter than `2 ^ 31`. -/
def InOneBody (buffers : List Str) : Prop :=
  (∀ b ∈ buffers, b.length < 2 ^ 31) ∧
    ∀ front back, buffers = front ++ [] :: back → back.flatten = []

theorem smooth_iff_unsplit {c : Conn} {chunks : List Chunk} {good rest : List Str}
    (hencode : chunks.map Chunk.encode = good.map encodeChunk)
    (hpayload : chunks.map Chunk.payload = good) (hext : ∀ chunk ∈ chunks, chunk.ext = [])
    (hrest : rest.flatten = []) : Smooth c chunks ↔ Unsplit c (good ++ rest) := by
  have hlen : chunks.length = good.length := by rw [← hpayload, List.length_map]
  have htake : ∀ k ≤ good.length, ((good ++ rest).take k).flatMap encodeChunk =
      (chunks.take k).flatMap Chunk.encode := by
    intro k hk
    rw [List.take_append_of_le_length hk, List.flatMap_def, List.flatMap_def, List.map_take,
      List.map_take, hencode]
  constructor
  · rintro ⟨-, hcut⟩ k hk hne
    have hlt : k < good.length := by
      by_contra hge
      rw [List.drop_append, List.drop_of_length_le (by omega), List.nil_append] at hne
      apply hne
      rw [List.flatten_eq_nil_iff] at hrest ⊢
      exact fun b hb => hrest b (List.mem_of_mem_drop hb)
    rw [htake k hlt.le]
    refine hcut _ _ (List.take_append_drop k chunks).symm ?_ ?_
    · intro h
      have := congrArg List.length h
      rw [List.length_take, List.length_nil] at this
      omega
    · intro h
      have := congrArg List.length h
      rw [List.length_drop, List.length_nil] at this
      omega
  · intro hunsplit
    refine ⟨hext, fun front back hsplit hfront hback => ?_⟩
    have hfrontlen := List.length_pos_iff.mpr hfront
    have hle : front.length ≤ good.length := by
      rw [← hlen, hsplit, List.length_append]
      omega
    have h := hunsplit front.length hfrontlen ?_
    · rwa [htake _ hle, hsplit, List.take_left] at h
    · obtain ⟨d, back, rfl⟩ := List.exists_cons_of_ne_nil hback
      rw [List.drop_append_of_le_length hle, ← hpayload, hsplit, List.map_append,
        List.drop_left' (List.length_map _), List.map_cons]
      intro h
      rw [List.flatten_append, List.flatten_cons] at h
      exact d.payload_ne (List.append_eq_nil_iff.mp (List.append_eq_nil_iff.mp h).1).1

/-- Reading back a call of the reader succeeds with the buffers. -/
def ReadsBack (p : ChunkedCall) (c : Conn) (buffers : List Str) : Prop :=
  ∃ s remaining, readChunkedPostData p c none = some (.success s remaining) ∧
    s.written = buffers.flatten

theorem zero_ne_nil : ascii "0" ≠ [] := List.cons_ne_nil _ _

theorem eq_of_mem_zero : ∀ b ∈ ascii "0", b = ch '0' := fun _ => List.mem_singleton.mp

def endOfBody : Body where
  chunks := []
  zeros := ascii "0"
  ext := []
  trailer := []
  zeros_ne := zero_ne_nil
  zeros_eq := eq_of_mem_zero
  extension := isExtension_nil

section ReadBack

variable {p : ChunkedCall} {out : Sink} {c : Conn}

/-- What is before the first empty buffer is read back on an unsplit source. -/
theorem readsBack_iff_unsplit (hout : p.out = some out) (haccepts : out.Accepts)
    (hsize : 0 < p.outBufferSize) (hmax : p.maxChunks = 0)
    (hproper : Fragments.Proper c.socket) {good rest : List Str} {tail : Str}
    (hgood : ∀ b ∈ good, Sendable b) (hrest : rest.flatten = [])
    (hunread : c.unread = good.flatMap encodeChunk ++ (ascii "0" ++ crlf ++ tail)) :
    ReadsBack p c (good ++ rest) ↔ Unsplit c (good ++ rest) := by
  obtain ⟨chunks, hencode, hpayload, hext⟩ := exists_chunks hgood
  have hflat : good.flatMap encodeChunk = chunks.flatMap Chunk.encode := by
    rw [List.flatMap_def, List.flatMap_def, hencode]
  have htotal : (good ++ rest).flatten = chunks.flatMap Chunk.payload := by
    rw [List.flatten_append, hrest, List.append_nil, List.flatMap_def, hpayload]
  rw [hflat] at hunread
  have hfuel : chunks.length < c.unread.length + 1 := by
    have := length_chunks_le chunks
    rw [hunread, List.length_append]
    omega
  obtain ⟨s', hrun, -, hiff⟩ := @readChunks_writes p out hout haccepts hsize hmax none rfl endOfBody
    tail chunks (c.unread.length + 1) 0 ⟨c, [], 0, []⟩ hproper hunread hfuel
  rw [← smooth_iff_unsplit hencode hpayload hext hrest, ← hiff, List.nil_append]
  unfold ReadsBack readChunkedPostData
  rw [hrun, htotal]
  constructor
  · rintro ⟨s, remaining, h, hwritten⟩
    obtain ⟨rfl, -⟩ := ChunkedResult.success.inj (Option.some.inj h)
    exact hwritten
  · exact fun hwritten => ⟨s', _, rfl, hwritten⟩

/-- What comes after an empty buffer, and a buffer that is too long, is never read back. -/
theorem not_readsBack (hout : p.out = some out) (haccepts : out.Accepts)
    (hsize : 0 < p.outBufferSize) (hmax : p.maxChunks = 0)
    (hproper : Fragments.Proper c.socket) {good rest : List Str} {line tail : Str}
    (hgood : ∀ b ∈ good, Sendable b) (hrest : rest.flatten ≠ []) (hstops : Stops line tail)
    (hunread : c.unread = good.flatMap encodeChunk ++ (line ++ crlf ++ tail)) :
    ¬ ReadsBack p c (good ++ rest) := by
  obtain ⟨chunks, hencode, hpayload, hext⟩ := exists_chunks hgood
  rintro ⟨s, remaining, hrun, hwritten⟩
  rw [List.flatMap_def, ← hencode, ← List.flatMap_def] at hunread
  obtain ⟨written, hprefix, heq⟩ := readChunks_written hout haccepts hsize hmax hstops hext
    (s := ⟨c, [], 0, []⟩) hproper hunread hrun
  have hlen := hprefix.length_le
  have hpos := List.length_pos_iff.mpr hrest
  rw [heq, List.nil_append, List.flatten_append] at hwritten
  rw [List.flatMap_def, hpayload, hwritten, List.length_append] at hlen
  omega

end ReadBack

/-! ## All buffers -/

theorem flatten_of_suffix {back rest : List Str} (h : back <:+ rest) (hrest : rest.flatten = []) :
    back.flatten = [] := by
  rw [List.flatten_eq_nil_iff] at hrest ⊢
  exact fun b hb => hrest b (h.subset hb)

theorem inOneBody_iff {good rest : List Str} (hgood : ∀ b ∈ good, Sendable b)
    (hrest : ∀ b ∈ rest.head?, ¬ Sendable b) : InOneBody (good ++ rest) ↔ rest.flatten = [] := by
  constructor
  · rintro ⟨hlen, hempty⟩
    cases rest with
    | nil => rfl
    | cons b back =>
      have hb : b = [] := by
        by_contra hne
        exact hrest b rfl ⟨hne, hlen b (List.mem_append_right _ List.mem_cons_self)⟩
      rw [List.flatten_cons, hempty good back (by rw [hb]), hb]
      rfl
  · intro hnil
    refine ⟨fun b hb => ?_, fun front back hsplit => ?_⟩
    · rcases List.mem_append.mp hb with hb | hb
      · exact (hgood b hb).2
      · rw [List.flatten_eq_nil_iff] at hnil
        rw [hnil b hb]
        norm_num
    · -- The empty buffer is not one of the good ones.
      rcases List.append_eq_append_iff.mp hsplit with ⟨mid, hfront, hmid⟩ | ⟨mid, hfront, hmid⟩
      · exact flatten_of_suffix ⟨mid ++ [[]], by rw [hmid, List.append_assoc]; rfl⟩ hnil
      · cases mid with
        | nil => exact flatten_of_suffix ⟨[[]], by rw [← List.nil_append rest, ← hmid]; rfl⟩ hnil
        | cons a mid =>
          obtain ⟨rfl, -⟩ := List.cons.inj hmid
          exact absurd rfl (hgood [] (hfront ▸ List.mem_append_right _ List.mem_cons_self)).1

theorem exists_good (buffers : List Str) : ∃ good rest, buffers = good ++ rest ∧
    (∀ b ∈ good, Sendable b) ∧ ∀ b ∈ rest.head?, ¬ Sendable b := by
  refine ⟨buffers.takeWhile (Sendable ·), buffers.dropWhile (Sendable ·),
    List.takeWhile_append_dropWhile.symm, fun b hb => ?_, fun b hb => ?_⟩
  · simpa using List.mem_takeWhile_imp hb
  · have h := List.head?_dropWhile_not (fun b => decide (Sendable b)) buffers
    rw [Option.mem_def.mp hb] at h
    simpa using h

/-- **The round trip.** What was sent in chunks is read back if all that is not empty comes before
the first empty buffer, in chunks below `2 ^ 31`, and no fragment ends inside the CRLF of a chunk
before more payload; and of what fits into memory nothing else is. -/
theorem sent_readsBack_iff {σ : Type} {sinks : Sinks} (haccepts : sinks.channel.Accepts)
    {chain : FiltersChain σ} (hchain : ∀ f ∈ chain.filters, f.Transparent)
    (hstream : chain.stream = .channel) {s : Streams σ} {buffers : List Str} {p : ChunkedCall}
    {out : Sink} (hout : p.out = some out) (hreader : out.Accepts) (hsize : 0 < p.outBufferSize)
    (hmax : p.maxChunks = 0) {c : Conn} (hproper : Fragments.Proper c.socket)
    (hunread : (sendBuffers sinks chain buffers s).2.channel = s.channel ++ c.unread) :
    (InOneBody buffers ∧ Unsplit c buffers → ReadsBack p c buffers) ∧
      (c.unread.length < 2 ^ 63 → ReadsBack p c buffers →
        InOneBody buffers ∧ Unsplit c buffers) := by
  rw [sendBuffers_eq haccepts hchain hstream] at hunread
  have hbytes := (List.append_cancel_left hunread).symm
  obtain ⟨good, rest, rfl, hgood, hrest⟩ := exists_good buffers
  rw [List.flatMap_append] at hbytes
  rw [inOneBody_iff hgood hrest]
  have hbody : rest.flatten = [] → (ReadsBack p c (good ++ rest) ↔ Unsplit c (good ++ rest)) := by
    intro hnil
    cases rest with
    | nil =>
      refine @readsBack_iff_unsplit p out c hout hreader hsize hmax hproper good [] crlf hgood hnil ?_
      rw [hbytes, List.flatMap_nil, List.append_nil]
      rfl
    | cons b back =>
      have hb : b = [] := (List.append_eq_nil_iff.mp hnil).1
      refine @readsBack_iff_unsplit p out c hout hreader hsize hmax hproper good (b :: back)
        (crlf ++ (back.flatMap encodeChunk ++ ascii "0\r\n\r\n")) hgood hnil ?_
      have hzero : encodeChunk [] = ascii "0" ++ crlf ++ crlf := by decide
      rw [hbytes, List.flatMap_cons, hb, hzero]
      simp
  refine ⟨fun ⟨hnil, hunsplit⟩ => (hbody hnil).mpr hunsplit, fun hfits hreads => ?_⟩
  by_cases hnil : rest.flatten = []
  · exact ⟨hnil, (hbody hnil).mp hreads⟩
  · obtain ⟨b, back, rfl⟩ : ∃ b back, rest = b :: back := by
      apply List.exists_cons_of_ne_nil
      intro h
      exact hnil (h ▸ rfl)
    have hsplit : c.unread = good.flatMap encodeChunk ++ (toHex b.length ++ crlf ++
        (b ++ crlf ++ (back.flatMap encodeChunk ++ ascii "0\r\n\r\n"))) := by
      rw [hbytes, List.flatMap_cons]
      simp [encodeChunk]
    have hstops := @stops_of_not_sendable b
      (b ++ crlf ++ (back.flatMap encodeChunk ++ ascii "0\r\n\r\n")) (hrest b rfl) (by
        have := congrArg List.length hsplit
        simp only [List.length_append] at this ⊢
        omega)
    exact absurd hreads
      (not_readsBack hout hreader hsize hmax hproper hgood hnil hstops hsplit)

/-- A chain without filters to a channel that takes everything. -/
def plainChain : FiltersChain Unit := ⟨[], .channel⟩

def plainSinks : Sinks := ⟨Sink.memory, Sink.memory⟩

def emptyStreams : Streams Unit := ⟨fun _ => (), [], [], ⟨[], 0, 0⟩⟩

theorem sent_readsBack_hello : ReadsBack ⟨4, some Sink.memory, 0⟩
    ⟨ascii "5\r\nhello\r\n3\r\nabc\r\n0\r\n\r\n", [], false⟩ [ascii "hello", ascii "abc"] := by
  refine (@sent_readsBack_iff Unit plainSinks Sink.memory_accepts plainChain
    (fun f hf => by cases hf) rfl emptyStreams [ascii "hello", ascii "abc"]
    ⟨4, some Sink.memory, 0⟩ Sink.memory rfl Sink.memory_accepts (by decide) rfl
    ⟨ascii "5\r\nhello\r\n3\r\nabc\r\n0\r\n\r\n", [], false⟩ (fun f hf => by cases hf)
    (by decide)).1 ⟨?_, ?_⟩
  · exact (@inOneBody_iff [ascii "hello", ascii "abc"] [] (by decide) (fun b hb => by cases hb)).mpr
      rfl
  · rintro k - - ⟨j, hcut, -⟩
    exact Fragments.cutAt_nil j hcut

/-- An empty buffer ends the body: what is sent after it is lost. -/
theorem empty_buffer_ends_body :
    (sendBuffers plainSinks plainChain [ascii "abc", [], ascii "de"] emptyStreams).2.channel =
        ascii "3\r\nabc\r\n0\r\n\r\n2\r\nde\r\n0\r\n\r\n" ∧
      ¬ ReadsBack ⟨4, some Sink.memory, 0⟩
        ⟨ascii "3\r\nabc\r\n0\r\n\r\n2\r\nde\r\n0\r\n\r\n", [], false⟩
        [ascii "abc", [], ascii "de"] := by
  have hrun : readChunkedPostData ⟨4, some Sink.memory, 0⟩
      ⟨ascii "3\r\nabc\r\n0\r\n\r\n2\r\nde\r\n0\r\n\r\n", [], false⟩ none =
        some (.success ⟨⟨ascii "\r\n2\r\nde\r\n0\r\n\r\n", [], false⟩, ascii "abc", 3,
          ascii "abc"⟩ none) := by
    decide
  refine ⟨by decide, ?_⟩
  rintro ⟨s, remaining, h, hwritten⟩
  obtain ⟨rfl, -⟩ := ChunkedResult.success.inj (Option.some.inj (hrun.symm.trans h))
  exact absurd hwritten (by decide)

end MyServer
