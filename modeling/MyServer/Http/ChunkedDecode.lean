import MyServer.Http.ChunkedBody

/-!
# Decoding a chunked body

The payload of a chunk is taken whole however it arrives. The two bytes that end
it are not: where a fragment ends between them the line feed stays unread, and
the next size line starts with it.
-/

namespace MyServer

/-! ## Two kinds of read -/

/-- A read of no more than the payload stays in it. -/
theorem read_payload {c : Conn} (hproper : Fragments.Proper c.socket) {payload u : Str}
    (hunread : c.unread = payload ++ crlf ++ u) {n : Nat} (hn : 0 < n) (hle : n ≤ payload.length) :
    ∃ bs rest c', readContiguousPrimitivePostData c n = ⟨bs, false, c'⟩ ∧ bs ≠ [] ∧
      payload = bs ++ rest ∧ c'.unread = rest ++ crlf ++ u ∧ Fragments.Proper c'.socket ∧
      ∀ k, 0 < k → (c'.CutAt k ↔ c.CutAt (bs.length + k)) := by
  have hlen : n ≤ c.unread.length := by
    rw [hunread, List.length_append, List.length_append]
    omega
  obtain ⟨bs, c', hread, h⟩ := read_reads hproper hlen
  have hbs := h.length_le
  have hbs_pre : bs <+: c.unread := by
    rw [h.unread]
    exact List.prefix_append _ _
  have hpayload_pre : payload <+: c.unread := by
    rw [hunread, List.append_assoc]
    exact List.prefix_append _ _
  obtain ⟨rest, rfl⟩ := List.prefix_of_prefix_length_le hbs_pre hpayload_pre (by omega)
  refine ⟨bs, rest, c', hread, h.ne_nil hn, rfl, ?_, h.proper, h.cuts⟩
  have hu := h.unread
  rw [hunread, List.append_assoc, List.append_assoc] at hu
  rw [← List.append_cancel_left hu, List.append_assoc]

/-- The read of the two bytes that end a chunk takes one of them where a fragment ends there. -/
theorem read_crlf {c : Conn} (hproper : Fragments.Proper c.socket) {u : Str}
    (hunread : c.unread = crlf ++ u) :
    ∃ bs c', readContiguousPrimitivePostData c 2 = ⟨bs, false, c'⟩ ∧ Fragments.Proper c'.socket ∧
      (¬ c.CutAt 1 ∧ c'.unread = u ∧ (∀ k, 0 < k → (c'.CutAt k ↔ c.CutAt (2 + k))) ∨
        c.CutAt 1 ∧ c'.unread = ch '\n' :: u) := by
  have hlen : 2 ≤ c.unread.length := by
    rw [hunread, List.length_append]
    exact Nat.le_add_right 2 _
  obtain ⟨bs, c', hread, h⟩ := read_reads hproper hlen
  have hne := List.length_pos_iff.mpr (h.ne_nil (by omega))
  have hu := h.unread
  rw [hunread] at hu
  refine ⟨bs, c', hread, h.proper, ?_⟩
  by_cases hcut : c.CutAt 1
  · have hshort : bs.length = 1 := by
      have := h.short 1 hcut
      omega
    obtain ⟨a, rfl⟩ := List.length_eq_one_iff.mp hshort
    exact Or.inr ⟨hcut, (List.cons.inj hu).2.symm⟩
  · have hfull : bs.length = 2 := by
      refine h.full fun j hj hj2 => ?_
      obtain rfl : j = 1 := by omega
      exact hcut
    have hcuts := h.cuts
    rw [hfull] at hcuts
    exact Or.inl ⟨hcut, (List.append_inj_right hu hfull.symm).symm, hcuts⟩

/-- **A size line that is read as 0** ends the call with success. -/
theorem readChunks_stops {p : ChunkedCall} {remaining : Option Nat} (hremaining : remaining.getD 0 = 0)
    {n : Nat} (hgo : p.maxChunks = 0 ∨ n < p.maxChunks) {s : Progress}
    (hproper : Fragments.Proper s.conn.socket) {line rest : Str}
    (hunread : s.conn.unread = line ++ crlf ++ rest) (hzero : sizeOf (sizeChars line) = 0)
    (fuel : Nat) :
    ∃ c', readChunks p remaining (fuel + 1) n s =
        some (.success { s with conn := c' } (remaining.map fun _ => 0)) ∧
      rest.length ≤ c'.unread.length := by
  obtain ⟨c', hread, hlen⟩ := readSizeLine_within hproper hunread
  refine ⟨c', ?_, hlen⟩
  rw [hzero] at hread
  unfold readChunks
  rw [if_pos hgo]
  simp [hremaining, hread]

/-- An extension is read with the size, and the reader stops at the first chunk that has one. -/
theorem readChunks_at_extension {p : ChunkedCall} {remaining : Option Nat}
    (hremaining : remaining.getD 0 = 0) {n : Nat} (hgo : p.maxChunks = 0 ∨ n < p.maxChunks)
    {s : Progress} (hproper : Fragments.Proper s.conn.socket) {chunk : Chunk}
    (hzero : sizeOf (sizeChars chunk.line) = 0) {u rest : Str}
    (hunread : s.conn.unread = chunk.encode ++ (u ++ rest)) (fuel : Nat) :
    ∃ c', readChunks p remaining (fuel + 1) n s =
        some (.success { s with conn := c' } (remaining.map fun _ => 0)) ∧
      rest.length ≤ c'.unread.length := by
  have hline : s.conn.unread = chunk.line ++ crlf ++ (chunk.payload ++ crlf ++ (u ++ rest)) := by
    rw [hunread]
    simp [Chunk.encode]
  obtain ⟨c', hrun, hlen⟩ := readChunks_stops hremaining hgo hproper hline hzero fuel
  refine ⟨c', hrun, le_trans ?_ hlen⟩
  simp only [List.length_append]
  omega

/-- A chunk without an extension is entered with its size. -/
theorem readChunks_enters {p : ChunkedCall} {remaining : Option Nat}
    (hremaining : remaining.getD 0 = 0) {n : Nat} (hgo : p.maxChunks = 0 ∨ n < p.maxChunks)
    {s : Progress} (hproper : Fragments.Proper s.conn.socket) {chunk : Chunk}
    (hext : chunk.ext = []) {u : Str} (hunread : s.conn.unread = chunk.encode ++ u) (fuel : Nat) :
    ∃ c', c'.unread = chunk.payload ++ crlf ++ u ∧ Fragments.Proper c'.socket ∧
      (∀ k, 0 < k → (c'.CutAt k ↔ s.conn.CutAt (chunk.line.length + 2 + k))) ∧
      (∀ s', readPayload p chunk.payload.length (c'.unread.length + 1) 0 { s with conn := c' } =
          some (.left s') →
        readChunks p remaining (fuel + 1) n s = readChunks p remaining fuel (n + 1) s') ∧
      ∀ k s', readPayload p chunk.payload.length (c'.unread.length + 1) 0 { s with conn := c' } =
          some (.returned k s') →
        readChunks p remaining (fuel + 1) n s =
          some (.success s' (remaining.map fun _ => k)) := by
  have hline : s.conn.unread = chunk.line ++ crlf ++ (chunk.payload ++ crlf ++ u) := by
    rw [hunread]
    simp [Chunk.encode]
  obtain ⟨c', hread, hunread', hproper', hcuts⟩ := Chunk.readSizeLine_whole hext hproper hline
  have hpayload : chunk.payload.length ≠ 0 :=
    Nat.pos_iff_ne_zero.mp (List.length_pos_iff.mpr chunk.payload_ne)
  refine ⟨c', hunread', hproper', hcuts, fun s' h => ?_, fun k s' h => ?_⟩ <;>
  · rw [readChunks, if_pos hgo]
    simp [hremaining, hread, hpayload, h]

/-- **One round of the payload loop** that reads something and delivers it. -/
theorem readPayload_round {p : ChunkedCall} {fuel dataToRead chunkNbr : Nat} {s s₁ : Progress}
    {bs : Str} {c' : Conn} (hlt : chunkNbr < dataToRead)
    (hread : readContiguousPrimitivePostData s.conn
      (min p.outBufferSize (dataToRead - chunkNbr)) = ⟨bs, false, c'⟩)
    (hbs : bs ≠ []) (hdeliver : deliver p s ⟨bs, false, c'⟩ = some s₁)
    {e : Str} {c'' : Conn}
    (hend : (if chunkNbr + bs.length = dataToRead then readContiguousPrimitivePostData s₁.conn 2
      else ⟨[], false, s₁.conn⟩) = ⟨e, false, c''⟩) :
    readPayload p dataToRead (fuel + 1) chunkNbr s =
      if p.out.isNone then
        some (.returned (dataToRead - (chunkNbr + bs.length)) { s₁ with conn := c'' })
      else readPayload p dataToRead fuel (chunkNbr + bs.length) { s₁ with conn := c'' } := by
  have hpos := List.length_pos_iff.mpr hbs
  rw [readPayload, if_pos hlt]
  dsimp only
  rw [hread]
  dsimp only
  rw [if_neg (by omega), hdeliver]
  dsimp only
  rw [if_neg Bool.false_ne_true, hend]
  rfl

/-! ## With an output stream -/

section Stream

variable {p : ChunkedCall} {out : Sink}

theorem deliver_accepts (hout : p.out = some out) (haccepts : out.Accepts) (s : Progress)
    (r : ReadResult) : deliver p s r =
      some ⟨r.conn, r.bytes, s.outNbr + r.bytes.length, s.written ++ r.bytes⟩ := by
  unfold deliver
  rw [hout]
  dsimp only
  rw [haccepts]
  simp

/-- **One chunk.** Its payload is written; what is left unread depends on the CRLF. -/
theorem readPayload_writes (hout : p.out = some out) (haccepts : out.Accepts)
    (hsize : 0 < p.outBufferSize) {fuel dataToRead chunkNbr : Nat} {s : Progress} {payload u : Str}
    (hproper : Fragments.Proper s.conn.socket) (hunread : s.conn.unread = payload ++ crlf ++ u)
    (hne : payload ≠ []) (hdata : dataToRead = chunkNbr + payload.length)
    (hfuel : payload.length < fuel) :
    ∃ s', readPayload p dataToRead fuel chunkNbr s = some (.left s') ∧
      s'.written = s.written ++ payload ∧ Fragments.Proper s'.conn.socket ∧
      (¬ s.conn.CutAt (payload.length + 1) ∧ s'.conn.unread = u ∧
          (∀ k, 0 < k → (s'.conn.CutAt k ↔ s.conn.CutAt (payload.length + 2 + k))) ∨
        s.conn.CutAt (payload.length + 1) ∧ s'.conn.unread = ch '\n' :: u) := by
  induction fuel generalizing chunkNbr s payload with
  | zero => omega
  | succ fuel ih =>
    have hpos := List.length_pos_iff.mpr hne
    obtain ⟨bs, rest, c', hread, hbs, rfl, hunread', hproper', hcuts⟩ :=
      read_payload hproper hunread (n := min p.outBufferSize (dataToRead - chunkNbr))
        (by omega) (by omega)
    have hbspos := List.length_pos_iff.mpr hbs
    rw [List.length_append] at hdata hfuel
    have hdeliver := deliver_accepts hout haccepts s ⟨bs, false, c'⟩
    by_cases hrest : rest = []
    · -- The chunk is complete: its CRLF is read, and the loop ends.
      subst hrest
      rw [List.nil_append] at hunread'
      rw [List.length_nil] at hdata hfuel
      obtain ⟨e, c'', hcrlf, hproper'', hend⟩ := read_crlf hproper' hunread'
      rw [readPayload_round (by omega) hread hbs hdeliver
        ((if_pos (by omega)).trans hcrlf), hout]
      obtain ⟨fuel, rfl⟩ : ∃ f, fuel = f + 1 := ⟨fuel - 1, by omega⟩
      refine ⟨⟨c'', bs, s.outNbr + bs.length, s.written ++ bs⟩, ?_, ?_, hproper'', ?_⟩
      · rw [readPayload, if_neg (show ¬ chunkNbr + bs.length < dataToRead by omega)]
        rfl
      · rw [List.append_nil]
      · rw [List.append_nil, ← hcuts 1 (by omega)]
        refine hend.imp ?_ id
        rintro ⟨hno, hu, hcuts'⟩
        refine ⟨hno, hu, fun k hk => ?_⟩
        rw [hcuts' k hk, hcuts _ (by omega)]
        congr! 1
        omega
    · have hrestpos := List.length_pos_iff.mpr hrest
      obtain ⟨s', hrun, hwritten, hproper'', hend⟩ :=
        @ih (chunkNbr + bs.length) ⟨c', bs, s.outNbr + bs.length, s.written ++ bs⟩ rest hproper'
          hunread' hrest (by omega) (by omega)
      rw [readPayload_round (by omega) hread hbs hdeliver (if_neg (by omega)), hout]
      refine ⟨s', hrun, ?_, hproper'', ?_⟩
      · rw [hwritten, List.append_assoc]
      · rw [hcuts _ (by omega)] at hend
        rw [List.length_append, Nat.add_assoc]
        refine hend.imp ?_ id
        rintro ⟨hno, hu, hcuts'⟩
        refine ⟨hno, hu, fun k hk => ?_⟩
        rw [hcuts' k hk, hcuts _ (by omega)]
        congr! 1
        omega

/-! ### All chunks -/

/-- No chunk has an extension, and no socket fragment ends between the two bytes that end a chunk
with another one after it. -/
def Smooth (c : Conn) (chunks : List Chunk) : Prop :=
  (∀ chunk ∈ chunks, chunk.ext = []) ∧
    ∀ front back, chunks = front ++ back → front ≠ [] → back ≠ [] →
      ¬ c.CutAt ((front.flatMap Chunk.encode).length - 1)

theorem Chunk.encode_length (chunk : Chunk) :
    chunk.encode.length = chunk.line.length + 2 + (chunk.payload.length + 2) := by
  unfold Chunk.encode crlf
  simp only [List.length_append, List.length_cons, List.length_nil]
  omega

theorem smooth_nil (c : Conn) : Smooth c [] :=
  ⟨fun _ h => (by cases h), fun front back h hne _ _ =>
    hne (List.append_eq_nil_iff.mp h.symm).1⟩

theorem smooth_singleton {c : Conn} {chunk : Chunk} : Smooth c [chunk] ↔ chunk.ext = [] := by
  constructor
  · exact fun h => h.1 chunk List.mem_cons_self
  · intro h
    refine ⟨fun d hd => (List.mem_singleton.mp hd) ▸ h, fun front back hsplit hfront hback => ?_⟩
    have hlen := congrArg List.length hsplit
    have h1 := List.length_pos_iff.mpr hfront
    have h2 := List.length_pos_iff.mpr hback
    rw [List.length_append, List.length_singleton] at hlen
    omega

/-- The condition is passed on from chunk to chunk. -/
theorem smooth_cons {c c' : Conn} {chunk : Chunk} {chunks : List Chunk} (hne : chunks ≠ [])
    (hcuts : ∀ k, 0 < k → (c'.CutAt k ↔ c.CutAt (chunk.encode.length + k))) :
    Smooth c (chunk :: chunks) ↔
      chunk.ext = [] ∧ ¬ c.CutAt (chunk.encode.length - 1) ∧ Smooth c' chunks := by
  have hpos := chunk.encode_length
  constructor
  · rintro ⟨hext, hcut⟩
    refine ⟨hext chunk List.mem_cons_self, ?_, fun d hd => hext d (List.mem_cons_of_mem _ hd), ?_⟩
    · have h := hcut [chunk] chunks rfl (by simp) hne
      rwa [List.flatMap_singleton] at h
    · intro front back hsplit hfront hback
      have h := hcut (chunk :: front) back (by rw [hsplit]; rfl) (by simp) hback
      obtain ⟨d, front, rfl⟩ := List.exists_cons_of_ne_nil hfront
      have hd := d.encode_length
      rw [hcuts _ (by rw [List.flatMap_cons, List.length_append]; omega)]
      rw [List.flatMap_cons, List.length_append] at h
      rwa [← Nat.add_sub_assoc (by rw [List.flatMap_cons, List.length_append]; omega)]
  · rintro ⟨hext, hcut, hexts, hcuts'⟩
    refine ⟨fun d hd => ?_, fun front back hsplit hfront hback => ?_⟩
    · rcases List.mem_cons.mp hd with rfl | hd
      · exact hext
      · exact hexts d hd
    · obtain ⟨d, front, rfl⟩ := List.exists_cons_of_ne_nil hfront
      rw [List.cons_append, List.cons.injEq] at hsplit
      obtain ⟨rfl, hsplit⟩ := hsplit
      by_cases hnil : front = []
      · rwa [hnil, List.flatMap_singleton]
      · have h := hcuts' front back hsplit hnil hback
        obtain ⟨d, front, rfl⟩ := List.exists_cons_of_ne_nil hnil
        have hd := d.encode_length
        rw [hcuts _ (by rw [List.flatMap_cons, List.length_append]; omega)] at h
        rw [List.flatMap_cons, List.length_append]
        rwa [← Nat.add_sub_assoc (by rw [List.flatMap_cons, List.length_append]; omega)] at h

theorem append_ne_self {a b : Str} (h : b ≠ []) : a ≠ a ++ b := by
  intro heq
  exact h (List.append_right_eq_self.mp heq.symm)

theorem payloads_ne (chunk : Chunk) (chunks : List Chunk) :
    (chunk :: chunks).flatMap Chunk.payload ≠ [] := by
  rw [List.flatMap_cons]
  intro h
  exact chunk.payload_ne (List.append_eq_nil_iff.mp h).1

/-- **The run after a cut.** The line feed makes the next size line 0, wherever the body is. -/
theorem readChunks_after_cut {remaining : Option Nat} (hremaining : remaining.getD 0 = 0)
    {n : Nat} (hgo : p.maxChunks = 0 ∨ n < p.maxChunks) {line rest : Str}
    (chunks : List Chunk) {s : Progress} (hproper : Fragments.Proper s.conn.socket)
    (hunread : s.conn.unread =
      ch '\n' :: (chunks.flatMap Chunk.encode ++ (line ++ crlf ++ rest))) (fuel : Nat) :
    ∃ c', readChunks p remaining (fuel + 1) n s =
        some (.success { s with conn := c' } (remaining.map fun _ => 0)) ∧
      rest.length ≤ c'.unread.length := by
  cases chunks with
  | nil => exact readChunks_stops hremaining hgo hproper hunread (sizeOf_lf _) fuel
  | cons d chunks =>
    have hsplit : s.conn.unread = (ch '\n' :: d.line) ++ crlf ++ (d.payload ++ crlf ++
        (chunks.flatMap Chunk.encode ++ (line ++ crlf ++ rest))) := by
      rw [hunread]
      simp [Chunk.encode]
    obtain ⟨c', hrun, hlen⟩ := readChunks_stops hremaining hgo hproper hsplit (sizeOf_lf _) fuel
    refine ⟨c', hrun, le_trans ?_ hlen⟩
    simp only [List.length_append]
    omega

/-- **A chunk without an extension** is written whole. Then the next one is read, or a line feed is
left before it. -/
theorem readChunks_chunk (hout : p.out = some out) (haccepts : out.Accepts)
    (hsize : 0 < p.outBufferSize) {remaining : Option Nat} (hremaining : remaining.getD 0 = 0)
    {n : Nat} (hgo : p.maxChunks = 0 ∨ n < p.maxChunks) {s : Progress}
    (hproper : Fragments.Proper s.conn.socket) {chunk : Chunk} (hext : chunk.ext = []) {u : Str}
    (hunread : s.conn.unread = chunk.encode ++ u) (fuel : Nat) :
    ∃ s₂, readChunks p remaining (fuel + 1) n s = readChunks p remaining fuel (n + 1) s₂ ∧
      s₂.written = s.written ++ chunk.payload ∧ Fragments.Proper s₂.conn.socket ∧
      (¬ s.conn.CutAt (chunk.encode.length - 1) ∧ s₂.conn.unread = u ∧
          (∀ k, 0 < k → (s₂.conn.CutAt k ↔ s.conn.CutAt (chunk.encode.length + k))) ∨
        s.conn.CutAt (chunk.encode.length - 1) ∧ s₂.conn.unread = ch '\n' :: u) := by
  obtain ⟨c₁, hunread₁, hproper₁, hcuts₁, henter, -⟩ :=
    readChunks_enters hremaining hgo hproper hext hunread fuel
  have hlen₁ : chunk.payload.length < c₁.unread.length + 1 := by
    rw [hunread₁, List.length_append, List.length_append]
    omega
  obtain ⟨s₂, hpayload, hwritten, hproper₂, hend⟩ :=
    @readPayload_writes p out hout haccepts hsize _ _ 0 { s with conn := c₁ } _ _ hproper₁
      hunread₁ chunk.payload_ne (Nat.zero_add _).symm hlen₁
  have hencode := chunk.encode_length
  have hcut : c₁.CutAt (chunk.payload.length + 1) ↔ s.conn.CutAt (chunk.encode.length - 1) := by
    rw [hcuts₁ _ (by omega)]
    congr! 1
    omega
  dsimp only at hend
  rw [hcut] at hend
  refine ⟨s₂, henter s₂ hpayload, hwritten, hproper₂, hend.imp ?_ id⟩
  rintro ⟨hno, hunread₂, hcuts₂⟩
  refine ⟨hno, hunread₂, fun k hk => ?_⟩
  rw [hcuts₂ k hk, hcuts₁ _ (by omega)]
  congr! 1
  omega

/-- **The run through the chunks** always succeeds and never reaches the trailer. What it writes is
the whole payload exactly on a smooth source. -/
theorem readChunks_writes (hout : p.out = some out) (haccepts : out.Accepts)
    (hsize : 0 < p.outBufferSize) (hmax : p.maxChunks = 0) {remaining : Option Nat}
    (hremaining : remaining.getD 0 = 0) {body : Body} {rest : Str} {chunks : List Chunk}
    {fuel n : Nat} {s : Progress} (hproper : Fragments.Proper s.conn.socket)
    (hunread : s.conn.unread =
      chunks.flatMap Chunk.encode ++ (body.lastLine ++ crlf ++ rest))
    (hfuel : chunks.length < fuel) :
    ∃ s', readChunks p remaining fuel n s =
        some (.success s' (remaining.map fun _ => 0)) ∧
      rest.length ≤ s'.conn.unread.length ∧
      (s'.written = s.written ++ chunks.flatMap Chunk.payload ↔ Smooth s.conn chunks) := by
  induction chunks generalizing fuel n s with
  | nil =>
    obtain ⟨fuel, rfl⟩ : ∃ f, fuel = f + 1 := ⟨fuel - 1, by omega⟩
    obtain ⟨c', hrun, hlen⟩ := readChunks_stops hremaining (Or.inl hmax) hproper hunread
      body.sizeOf_lastLine fuel
    exact ⟨_, hrun, hlen, iff_of_true (List.append_nil _).symm (smooth_nil _)⟩
  | cons chunk chunks ih =>
    obtain ⟨fuel, rfl⟩ : ∃ f, fuel = f + 1 := ⟨fuel - 1, by omega⟩
    rw [List.length_cons] at hfuel
    rw [List.flatMap_cons, List.append_assoc] at hunread
    rcases chunk.sizeOf_line with ⟨hext, -⟩ | ⟨hext, hzero⟩
    · obtain ⟨s₂, henter, hwritten, hproper₂, hend⟩ :=
        readChunks_chunk hout haccepts hsize hremaining (Or.inl hmax) hproper hext hunread fuel
      rw [henter]
      rcases hend with ⟨hno, hunread₂, hcuts₂⟩ | ⟨hyes, hunread₂⟩
      · -- The next chunk starts where it should.
        obtain ⟨s', hrun, hlen, hiff⟩ := @ih fuel (n + 1) s₂ hproper₂ hunread₂ (by omega)
        refine ⟨s', hrun, hlen, ?_⟩
        rw [List.flatMap_cons, ← List.append_assoc, ← hwritten, hiff]
        by_cases hnil : chunks = []
        · rw [hnil]
          exact iff_of_true (smooth_nil _) (smooth_singleton.mpr hext)
        · rw [smooth_cons hnil hcuts₂]
          exact ⟨fun h => ⟨hext, hno, h⟩, fun h => h.2.2⟩
      · obtain ⟨fuel, rfl⟩ : ∃ f, fuel = f + 1 := ⟨fuel - 1, by omega⟩
        obtain ⟨c₃, hrun, hlen⟩ := readChunks_after_cut hremaining (n := n + 1) (Or.inl hmax) chunks
          hproper₂ hunread₂ fuel
        refine ⟨_, hrun, hlen, ?_⟩
        dsimp only
        rw [hwritten, List.flatMap_cons, ← List.append_assoc]
        cases chunks with
        | nil => exact iff_of_true (List.append_nil _).symm (smooth_singleton.mpr hext)
        | cons d chunks =>
          refine iff_of_false (append_ne_self (payloads_ne d chunks)) fun hsmooth => ?_
          have h := hsmooth.2 [chunk] (d :: chunks) rfl (by simp) (by simp)
          rw [List.flatMap_singleton] at h
          exact h hyes
    · have hsplit : s.conn.unread =
          chunk.encode ++ ((chunks.flatMap Chunk.encode ++ (body.lastLine ++ crlf)) ++ rest) := by
        rw [hunread]
        simp
      obtain ⟨c', hrun, hlen⟩ :=
        readChunks_at_extension hremaining (Or.inl hmax) hproper hzero hsplit fuel
      refine ⟨_, hrun, hlen, ?_⟩
      refine iff_of_false (append_ne_self (payloads_ne chunk chunks)) fun hsmooth => ?_
      exact hext (hsmooth.1 chunk List.mem_cons_self)

end Stream

theorem length_chunks_le (chunks : List Chunk) :
    chunks.length ≤ (chunks.flatMap Chunk.encode).length := by
  induction chunks with
  | nil => exact le_rfl
  | cons chunk chunks ih =>
    have := chunk.encode_length
    rw [List.length_cons, List.flatMap_cons, List.length_append]
    omega

theorem Body.encode_append (body : Body) (rest : Str) :
    body.encode ++ rest = body.chunks.flatMap Chunk.encode ++
      (body.lastLine ++ crlf ++ (body.trailerSection ++ rest)) := by
  simp [Body.encode]

/-- **Decoding a body to a stream.** The payload arrives exactly where no extension stops the reader
and no socket fragment ends inside the CRLF of a chunk with another one after it. -/
theorem readChunkedPostData_writes_iff {p : ChunkedCall} {out : Sink} (hout : p.out = some out)
    (haccepts : out.Accepts) (hsize : 0 < p.outBufferSize) (hmax : p.maxChunks = 0) {c : Conn}
    (hproper : Fragments.Proper c.socket) {body : Body} {rest : Str}
    (hunread : c.unread = body.encode ++ rest) :
    (∃ s remaining, readChunkedPostData p c none = some (.success s remaining) ∧
      s.written = body.payload) ↔ Smooth c body.chunks := by
  rw [body.encode_append] at hunread
  have hfuel : body.chunks.length < c.unread.length + 1 := by
    have := length_chunks_le body.chunks
    rw [hunread, List.length_append]
    omega
  obtain ⟨s', hrun, -, hiff⟩ := @readChunks_writes p out hout haccepts hsize hmax none rfl body _ _
    (c.unread.length + 1) 0 ⟨c, [], 0, []⟩ hproper hunread hfuel
  rw [List.nil_append] at hiff
  rw [← hiff]
  unfold readChunkedPostData
  rw [hrun]
  constructor
  · rintro ⟨s, remaining, h, hwritten⟩
    obtain ⟨rfl, rfl⟩ := ChunkedResult.success.inj (Option.some.inj h)
    exact hwritten
  · exact fun hwritten => ⟨s', none, rfl, hwritten⟩

/-- `5 hello 3 abc`, all in the buffer. -/
def helloBody : Body where
  chunks := [
    { digits := ascii "5", ext := [], payload := ascii "hello"
      hex := by decide, short := by decide, value := by decide, extension := Or.inl rfl
      payload_ne := by decide, payload_lt := by decide },
    { digits := ascii "3", ext := [], payload := ascii "abc"
      hex := by decide, short := by decide, value := by decide, extension := Or.inl rfl
      payload_ne := by decide, payload_lt := by decide }]
  zeros := ascii "0"
  ext := []
  trailer := []
  zeros_ne := by decide
  zeros_eq _ hb := List.mem_singleton.mp hb
  extension := Or.inl rfl

theorem readChunkedPostData_writes_hello : ∃ s remaining,
    readChunkedPostData ⟨16, some Sink.memory, 0⟩ ⟨helloBody.encode, [], false⟩ none =
      some (.success s remaining) ∧ s.written = helloBody.payload := by
  refine (@readChunkedPostData_writes_iff _ Sink.memory rfl Sink.memory_accepts (by decide) rfl _
    (fun f hf => by cases hf) helloBody [] (by decide)).mpr ⟨by decide, ?_⟩
  rintro front back - - - ⟨j, hcut, -⟩
  exact Fragments.cutAt_nil j hcut

/-- The second chunk is lost where the socket splits the CRLF of the first. -/
theorem readChunkedPostData_loses_chunk :
    Conn.unread ⟨ascii "5\r\nhe", [ascii "llo\r", ascii "\n3\r\nabc\r\n0\r\n\r\n"], false⟩ =
        helloBody.encode ∧
      readChunkedPostData ⟨16, some Sink.memory, 0⟩
          ⟨ascii "5\r\nhe", [ascii "llo\r", ascii "\n3\r\nabc\r\n0\r\n\r\n"], false⟩ none =
        some (.success ⟨⟨[], [ascii "abc\r\n0\r\n\r\n"], false⟩, ascii "hello",
          5, ascii "hello"⟩ none) ∧
      ascii "hello" ≠ helloBody.payload := by
  decide

/-! ## Through the proxy -/

/-- Between two calls of the proxy the source stands at a size line, in a payload of which
`remaining` bytes are to come, or at a line feed that a cut has left. -/
inductive StandsIn (body : Body) (rest : Str) : Nat → Conn → Prop
  | atLine {c : Conn} (chunks : List Chunk)
      (h : c.unread = chunks.flatMap Chunk.encode ++ (body.lastLine ++ crlf ++ rest)) :
      StandsIn body rest 0 c
  | inPayload {c : Conn} (payload : Str) (chunks : List Chunk) (hne : payload ≠ [])
      (h : c.unread = payload ++ crlf ++
        (chunks.flatMap Chunk.encode ++ (body.lastLine ++ crlf ++ rest))) :
      StandsIn body rest payload.length c
  | atLineFeed {c : Conn} (chunks : List Chunk)
      (h : c.unread = ch '\n' ::
        (chunks.flatMap Chunk.encode ++ (body.lastLine ++ crlf ++ rest))) :
      StandsIn body rest 0 c

/-- **One read of a payload** without an output stream. -/
theorem readPayload_returns {p : ChunkedCall} (hout : p.out = none) (hsize : 0 < p.outBufferSize)
    {body : Body} {rest payload : Str} {chunks : List Chunk} {s : Progress}
    (hproper : Fragments.Proper s.conn.socket)
    (hunread : s.conn.unread = payload ++ crlf ++
      (chunks.flatMap Chunk.encode ++ (body.lastLine ++ crlf ++ rest)))
    (hne : payload ≠ []) (fuel : Nat) :
    ∃ k s', readPayload p payload.length (fuel + 1) 0 s = some (.returned k s') ∧
      s.outNbr < s'.outNbr ∧ Fragments.Proper s'.conn.socket ∧
      s'.conn.unread.length < s.conn.unread.length ∧ StandsIn body rest k s'.conn := by
  have hpos := List.length_pos_iff.mpr hne
  obtain ⟨bs, left, c', hread, hbs, rfl, hunread', hproper', -⟩ :=
    read_payload hproper hunread (n := min p.outBufferSize payload.length) (by omega) (by omega)
  have hbspos := List.length_pos_iff.mpr hbs
  have hdeliver : deliver p s ⟨bs, false, c'⟩ =
      some { s with conn := c', outBuffer := bs, outNbr := s.outNbr + bs.length } := by
    unfold deliver
    rw [hout]
  have hlen := congrArg List.length hunread
  have hlen' := congrArg List.length hunread'
  simp only [List.length_append] at hlen hlen' hread ⊢
  rw [← Nat.sub_zero (bs.length + left.length)] at hread
  by_cases hleft : left = []
  · subst hleft
    rw [List.nil_append] at hunread'
    obtain ⟨e, c'', hcrlf, hproper'', hend⟩ := read_crlf hproper' hunread'
    rw [readPayload_round (by omega) hread hbs hdeliver
      ((if_pos (by simp)).trans hcrlf), hout, if_pos Option.isNone_none, Nat.zero_add,
      Nat.add_sub_cancel_left]
    have hcrlf_len : crlf.length = 2 := rfl
    refine ⟨_, _, rfl, by dsimp only; omega, hproper'', ?_, ?_⟩
    · dsimp only
      rcases hend with ⟨-, hu, -⟩ | ⟨-, hu⟩
      · rw [hu]
        simp only [List.length_append]
        omega
      · rw [hu]
        simp only [List.length_append, List.length_cons]
        omega
    · rcases hend with ⟨-, hu, -⟩ | ⟨-, hu⟩
      · exact StandsIn.atLine chunks hu
      · exact StandsIn.atLineFeed chunks hu
  · have hleftpos := List.length_pos_iff.mpr hleft
    rw [readPayload_round (by omega) hread hbs hdeliver (if_neg (by omega)), hout,
      if_pos Option.isNone_none, Nat.zero_add, Nat.add_sub_cancel_left]
    refine ⟨_, _, rfl, by dsimp only; omega, hproper', ?_,
      StandsIn.inPayload left chunks hleft hunread'⟩
    dsimp only
    omega

/-- **One call** of the proxy: it stops with no bytes before the trailer, or it goes on. -/
theorem readChunkedPostData_steps {bufferSize : Nat} (hsize : 0 < bufferSize) {body : Body}
    {rest : Str} {remaining : Nat} {c : Conn} (hproper : Fragments.Proper c.socket)
    (hstands : StandsIn body rest remaining c) :
    ∃ s k, readChunkedPostData ⟨bufferSize, none, 1⟩ c (some remaining) =
        some (.success s (some k)) ∧
      (s.outNbr = 0 ∧ rest.length ≤ s.conn.unread.length ∨
        s.outNbr ≠ 0 ∧ Fragments.Proper s.conn.socket ∧
          s.conn.unread.length < c.unread.length ∧ StandsIn body rest k s.conn) := by
  have hgo : ((0 : Nat) : Int) < 1 := by decide
  unfold readChunkedPostData
  cases hstands with
  | atLine chunks h =>
    cases chunks with
    | nil =>
      obtain ⟨c', hrun, hlen⟩ := @readChunks_stops ⟨bufferSize, none, 1⟩ (some 0) rfl 0
        (Or.inr hgo) ⟨c, [], 0, []⟩ hproper _ _ h body.sizeOf_lastLine c.unread.length
      exact ⟨_, 0, hrun, Or.inl ⟨rfl, hlen⟩⟩
    | cons chunk chunks =>
      rw [List.flatMap_cons, List.append_assoc] at h
      rcases chunk.sizeOf_line with ⟨hext, -⟩ | ⟨-, hzero⟩
      · obtain ⟨c₁, hunread₁, hproper₁, -, -, henter⟩ :=
          @readChunks_enters ⟨bufferSize, none, 1⟩ (some 0) rfl 0 (Or.inr hgo)
            ⟨c, [], 0, []⟩ hproper chunk hext _ h c.unread.length
        obtain ⟨k, s', hread, hnbr, hproper', hlen, hstands'⟩ :=
          @readPayload_returns ⟨bufferSize, none, 1⟩ rfl hsize body rest _ _ ⟨c₁, [], 0, []⟩
            hproper₁ hunread₁ chunk.payload_ne c₁.unread.length
        have hlen₁ : c₁.unread.length ≤ c.unread.length := by
          rw [hunread₁, h, Chunk.encode]
          simp only [List.length_append]
          omega
        dsimp only at hnbr hlen
        rw [henter k s' hread]
        exact ⟨s', k, rfl, Or.inr ⟨by omega, hproper', by omega, hstands'⟩⟩
      · have hsplit : c.unread =
            chunk.encode ++ ((chunks.flatMap Chunk.encode ++ (body.lastLine ++ crlf)) ++ rest) := by
          rw [h]
          simp
        obtain ⟨c', hrun, hlen⟩ := @readChunks_at_extension ⟨bufferSize, none, 1⟩ (some 0) rfl 0
          (Or.inr hgo) ⟨c, [], 0, []⟩ hproper chunk hzero _ _ hsplit c.unread.length
        exact ⟨_, 0, hrun, Or.inl ⟨rfl, hlen⟩⟩
  | inPayload payload chunks hne h =>
    have hpos := List.length_pos_iff.mpr hne
    obtain ⟨k, s', hread, hnbr, hproper', hlen, hstands'⟩ :=
      @readPayload_returns ⟨bufferSize, none, 1⟩ rfl hsize body rest _ _ ⟨c, [], 0, []⟩
        hproper h hne c.unread.length
    dsimp only at hnbr hlen
    refine ⟨s', k, ?_, Or.inr ⟨by omega, hproper', hlen, hstands'⟩⟩
    have hne0 : payload.length ≠ 0 := by omega
    rw [readChunks, if_pos (Or.inr hgo)]
    simp [hne0, hread]
  | atLineFeed chunks h =>
    obtain ⟨c', hrun, hlen⟩ := @readChunks_after_cut ⟨bufferSize, none, 1⟩ (some 0) rfl 0
      (Or.inr hgo) body.lastLine rest chunks ⟨c, [], 0, []⟩ hproper h c.unread.length
    exact ⟨_, 0, hrun, Or.inl ⟨rfl, hlen⟩⟩

/-- **The run of the proxy** ends, and it ends before the trailer. -/
theorem readPayLoad_ends {bufferSize : Nat} (hsize : 0 < bufferSize) {body : Body} {rest : Str}
    {fuel remaining : Nat} {c : Conn} (hproper : Fragments.Proper c.socket)
    (hstands : StandsIn body rest remaining c) (hfuel : c.unread.length < fuel) (sent : Str) :
    ∃ sent' c', readPayLoad bufferSize fuel c remaining sent = some (sent', c') ∧
      rest.length ≤ c'.unread.length := by
  induction fuel generalizing remaining c sent with
  | zero => omega
  | succ fuel ih =>
    obtain ⟨s, k, hcall, h | ⟨hne, hproper', hlen, hstands'⟩⟩ :=
      readChunkedPostData_steps hsize hproper hstands
    · refine ⟨sent, s.conn, ?_, h.2⟩
      simp [readPayLoad, hcall, h.1]
    · obtain ⟨sent', c', hrun, hrest⟩ :=
        ih hproper' hstands' (by omega) (sent ++ s.outBuffer)
      refine ⟨sent', c', ?_, hrest⟩
      simp [readPayLoad, hcall, hne, hrun]

/-! ## Where a body ends -/

/-- A call that succeeds leaves unread what follows the body and no more. -/
def FramesBody (p : ChunkedCall) (c : Conn) (rest : Str) : Prop :=
  ∀ s remaining, readChunkedPostData p c none = some (.success s remaining) → s.conn.unread = rest

/-- The same of the calls that the proxy makes. -/
def FramesAnswer (bufferSize fuel : Nat) (c : Conn) (rest : Str) : Prop :=
  ∀ sent c', readPayLoad bufferSize fuel c 0 [] = some (sent, c') → c'.unread = rest

/-- **Framing.** No body is read to its end, neither by a request nor by the proxy: the trailer
section, if only its CRLF, stays. -/
theorem not_framesBody {p : ChunkedCall} {out : Sink} (hout : p.out = some out)
    (haccepts : out.Accepts) (hsize : 0 < p.outBufferSize) (hmax : p.maxChunks = 0)
    {bufferSize : Nat} (hbuffer : 0 < bufferSize) {c : Conn} (hproper : Fragments.Proper c.socket)
    {body : Body} {rest : Str} (hunread : c.unread = body.encode ++ rest) {fuel : Nat}
    (hfuel : c.unread.length < fuel) :
    ¬ FramesBody p c rest ∧ ¬ FramesAnswer bufferSize fuel c rest := by
  rw [body.encode_append] at hunread
  have htrailer : rest.length < (body.trailerSection ++ rest).length := by
    have hcrlf : crlf.length = 2 := rfl
    rw [Body.trailerSection, List.length_append, List.length_append]
    omega
  have hchunks : body.chunks.length < c.unread.length + 1 := by
    have := length_chunks_le body.chunks
    rw [hunread, List.length_append]
    omega
  constructor
  · intro hframes
    obtain ⟨s', hrun, hlen, -⟩ := @readChunks_writes p out hout haccepts hsize hmax none rfl body _ _
      (c.unread.length + 1) 0 ⟨c, [], 0, []⟩ hproper hunread hchunks
    rw [hframes s' none hrun] at hlen
    omega
  · intro hframes
    obtain ⟨sent, c', hrun, hlen⟩ :=
      readPayLoad_ends hbuffer hproper (StandsIn.atLine body.chunks hunread) hfuel []
    rw [hframes sent c' hrun] at hlen
    omega

theorem not_framesBody_hello :
    ¬ FramesBody ⟨16, some Sink.memory, 0⟩ ⟨helloBody.encode ++ ascii "GET", [], false⟩
        (ascii "GET") ∧
      ¬ FramesAnswer 4 100 ⟨helloBody.encode ++ ascii "GET", [], false⟩ (ascii "GET") :=
  @not_framesBody ⟨16, some Sink.memory, 0⟩ Sink.memory rfl Sink.memory_accepts (by decide) rfl 4
    (by decide) _ (fun f hf => by cases hf) helloBody (ascii "GET") (by decide) 100 (by decide)

/-- The CRLF that ends the body is the first thing that the next request starts with. -/
theorem helloBody_not_framed :
    readChunkedPostData ⟨16, some Sink.memory, 0⟩ ⟨helloBody.encode ++ ascii "GET", [], false⟩
        none =
      some (.success ⟨⟨crlf ++ ascii "GET", [], false⟩, ascii "abc", 8, helloBody.payload⟩ none) ∧
      ¬ FramesBody ⟨16, some Sink.memory, 0⟩ ⟨helloBody.encode ++ ascii "GET", [], false⟩
        (ascii "GET") := by
  have hrun : readChunkedPostData ⟨16, some Sink.memory, 0⟩
      ⟨helloBody.encode ++ ascii "GET", [], false⟩ none =
        some (.success ⟨⟨crlf ++ ascii "GET", [], false⟩, ascii "abc", 8, helloBody.payload⟩ none) := by
    decide
  refine ⟨hrun, fun hframes => ?_⟩
  exact absurd (hframes _ _ hrun) (by decide)

end MyServer
