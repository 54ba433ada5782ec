import MyServer.Http.ChunkedDecode
import MyServer.Http.ProxyRelay

/-!
# Chunks through the proxy

The loop over the chunks from any source that starts as a body does, also where the connection ends
inside of it.
-/

namespace MyServer.Proxy

/-! ## The loop -/

/-- What the loop forwards from `c`, of whose chunk `k` bytes are to come. -/
def Relays (bufferSize : Nat) (c : Conn) (k : Nat) (r : Str) : Prop :=
  ∃ ok, ∀ fuel sent, c.unread.length < fuel → chunkedLoop bufferSize fuel c k sent = some ⟨ok, sent ++ r⟩

section

variable {bufferSize k dataToRead : Nat} {c c₁ c' : Conn} {r : Str}

theorem chunkedLoop_call (fuel : Nat) (sent : Str) : chunkedLoop bufferSize (fuel + 1) c k sent =
    match callResult bufferSize k c with
    | .failure => some ⟨false, sent⟩
    | .success s remaining =>
      if s.outNbr = 0 then some ⟨true, sent⟩
      else chunkedLoop bufferSize fuel s.conn (remaining.getD 0) (sent ++ s.outBuffer) := by
  rw [chunkedLoop, readChunkedPostData_call]
  cases callResult bufferSize k c <;> rfl

theorem Relays.failure (h : callResult bufferSize k c = .failure) : Relays bufferSize c k [] := by
  refine ⟨false, fun fuel sent hfuel => ?_⟩
  obtain ⟨fuel, rfl⟩ := Nat.exists_eq_add_of_le' (Nat.one_le_of_lt hfuel)
  rw [chunkedLoop_call, h, List.append_nil]

theorem Relays.no_line (h : readSizeLine c = none) : Relays bufferSize c 0 [] := by
  apply Relays.failure
  rw [callResult, if_neg (not_not.mpr rfl), h]

theorem Relays.last (h : readSizeLine c = some (0, c₁)) : Relays bufferSize c 0 [] := by
  refine ⟨true, fun fuel sent hfuel => ?_⟩
  obtain ⟨fuel, rfl⟩ := Nat.exists_eq_add_of_le' (Nat.one_le_of_lt hfuel)
  rw [chunkedLoop_call, callResult, if_neg (not_not.mpr rfl), h, List.append_nil]
  rfl

theorem Relays.line (h : readSizeLine c = some (dataToRead, c₁)) (hdata : dataToRead ≠ 0)
    (hrest : Relays bufferSize c₁ dataToRead r) : Relays bufferSize c 0 r := by
  obtain ⟨ok, hrest⟩ := hrest
  refine ⟨ok, fun fuel sent hfuel => ?_⟩
  have hlength := readSizeLine_length h
  rw [← hrest fuel sent (hlength.trans hfuel)]
  obtain ⟨fuel, rfl⟩ := Nat.exists_eq_add_of_le' (Nat.one_le_of_lt hfuel)
  have hcall : callResult bufferSize 0 c = callResult bufferSize dataToRead c₁ := by
    rw [callResult, callResult, if_neg (not_not.mpr rfl), if_pos hdata, h]
  rw [chunkedLoop_call, chunkedLoop_call, hcall]

theorem Relays.lost (hk : k ≠ 0) (h : payloadRead bufferSize k c = none) : Relays bufferSize c k [] := by
  apply Relays.failure
  rw [callResult, if_pos hk]
  dsimp only
  rw [if_neg hk, h]

theorem Relays.read {bs : Str} {left : Nat} (hk : k ≠ 0)
    (h : payloadRead bufferSize k c = some (bs, left, c')) (hrest : Relays bufferSize c' left r) :
    Relays bufferSize c k (bs ++ r) := by
  obtain ⟨ok, hrest⟩ := hrest
  refine ⟨ok, fun fuel sent hfuel => ?_⟩
  obtain ⟨hbs, hlength, -⟩ := payloadRead_spec h
  obtain ⟨fuel, rfl⟩ := Nat.exists_eq_add_of_le' (Nat.one_le_of_lt hfuel)
  have hcall : callResult bufferSize k c = .success ⟨c', bs, bs.length, []⟩ (some left) := by
    rw [callResult, if_pos hk]
    dsimp only
    rw [if_neg hk, h]
  rw [chunkedLoop_call, hcall]
  dsimp only
  rw [if_neg hbs, ← List.append_assoc]
  exact hrest fuel _ (by omega)

theorem readSizeLine_nil (hnil : c.unread = []) : readSizeLine c = none := by
  cases h : readSizeLine c with
  | none => rfl
  | some size =>
    have := readSizeLine_length h
    rw [hnil] at this
    exact absurd this (Nat.not_lt_zero _)

end

/-! ## A payload -/

/-- A failure at the CRLF behind the payload that ends `e` bytes from here: nothing of it has arrived, or
its CR alone, in the buffer. -/
def LostAt (c : Conn) (e : Nat) : Prop :=
  c.broken = true ∧ (c.unread.length = e ∨ c.unread.length = e + 1 ∧ c.socket = [])

theorem lostAt_after {c c' : Conn} {n e : Nat} (h : c.After n c') : LostAt c' e ↔ LostAt c (n + e) := by
  have hlength := h.length
  have hle := h.length_le
  unfold LostAt
  rw [h.broken]
  refine and_congr_right fun _ => or_congr (by omega) ⟨?_, ?_⟩
  · rintro ⟨he, hsocket⟩
    have hne : c'.unread ≠ [] := by
      intro hnil
      rw [hnil, List.length_nil] at he
      omega
    exact ⟨by omega, (h.socket hne).mp hsocket⟩
  · rintro ⟨he, hsocket⟩
    have hne : c'.unread ≠ [] := by
      intro hnil
      rw [hnil, List.length_nil] at hlength
      omega
    exact ⟨by omega, (h.socket hne).mpr hsocket⟩

theorem read_two_failed {c : Conn} (hproper : Fragments.Proper c.socket) :
    (readContiguousPrimitivePostData c 2).failed = true ↔ LostAt c 0 := by
  rw [(read_after hproper 2).2.2.2]
  unfold LostAt
  refine and_congr_right fun _ => ⟨?_, ?_⟩
  · rintro ⟨hsocket, hshort⟩
    have hall : c.unread.length = c.buffered.length := by
      rw [Conn.unread, hsocket, List.flatten_nil, List.append_nil]
    by_cases hzero : c.unread.length = 0
    · exact Or.inl hzero
    · exact Or.inr ⟨by omega, hsocket⟩
  · rintro (hzero | ⟨hone, hsocket⟩)
    · obtain ⟨hbuffered, hsocket⟩ := unread_nil hproper (List.length_eq_zero_iff.mp hzero)
      exact ⟨hsocket, by rw [hbuffered]; exact Nat.zero_lt_two⟩
    · rw [Conn.unread, hsocket, List.flatten_nil, List.append_nil] at hone
      exact ⟨hsocket, by omega⟩

theorem read_two_length {c : Conn} (hproper : Fragments.Proper c.socket) :
    (c.unread.length < 2 → (readContiguousPrimitivePostData c 2).bytes.length = c.unread.length) ∧
      (2 ≤ c.unread.length → ¬ c.CutAt 1 → (readContiguousPrimitivePostData c 2).bytes.length = 2) ∧
        (2 ≤ c.unread.length → c.CutAt 1 → (readContiguousPrimitivePostData c 2).bytes.length = 1) := by
  obtain ⟨hafter, -, hne, -⟩ := read_after hproper 2
  have hle := hafter.length_le
  refine ⟨fun hshort => ?_, fun hlong hcut => ?_, fun hlong hcut => ?_⟩
  · by_cases hnil : c.unread = []
    · rw [hnil, List.length_nil] at hle ⊢
      omega
    · have hpos := List.length_pos_iff.mpr (hne Nat.zero_lt_two hnil)
      omega
  · obtain ⟨bs, c', hread, hreads⟩ := read_reads hproper hlong
    rw [hread]
    refine hreads.full fun j hj hj' => ?_
    obtain rfl : j = 1 := by omega
    exact hcut
  · obtain ⟨bs, c', hread, hreads⟩ := read_reads hproper hlong
    have hpos := List.length_pos_iff.mpr (hreads.ne_nil Nat.zero_lt_two)
    have hone := hreads.short 1 hcut
    rw [hread]
    dsimp only
    omega

section

variable {bufferSize k : Nat} {c : Conn}

/-- A payload that does not arrive whole is forwarded as far as it does. -/
theorem relays_part (hsize : 0 < bufferSize) (hproper : Fragments.Proper c.socket)
    (hshort : c.unread.length < k) : Relays bufferSize c k c.unread := by
  induction hN : c.unread.length using Nat.strong_induction_on generalizing c k with
  | _ N ih =>
    subst hN
    have hk : k ≠ 0 := by omega
    obtain ⟨hafter, hle, hne, -⟩ := read_after hproper (min bufferSize k)
    have hunread := read_unread c (min bufferSize k)
    have hlength := hafter.length
    have hle' := hafter.length_le
    by_cases hnil : c.unread = []
    · rw [hnil] at hle' ⊢
      apply Relays.lost hk
      unfold payloadRead
      exact if_pos (Nat.le_zero.mp hle')
    · have hbs := List.length_pos_iff.mpr (hne (by omega) hnil)
      by_cases hfailed : (readContiguousPrimitivePostData c (min bufferSize k)).failed = true
      · have hall := unread_of_failed hproper hfailed
        have hread : payloadRead bufferSize k c = some (c.unread, 0,
            (readContiguousPrimitivePostData c (min bufferSize k)).conn) := by
          unfold payloadRead
          dsimp only
          rw [if_neg (by omega), if_pos hfailed, hall]
        have hend : (readContiguousPrimitivePostData c (min bufferSize k)).conn.unread = [] := by
          rw [hafter.unread, hall, List.drop_length]
        rw [← List.append_nil c.unread]
        exact Relays.read hk hread (Relays.no_line (readSizeLine_nil hend))
      · have hread : payloadRead bufferSize k c =
            some ((readContiguousPrimitivePostData c (min bufferSize k)).bytes,
              k - (readContiguousPrimitivePostData c (min bufferSize k)).bytes.length,
              (readContiguousPrimitivePostData c (min bufferSize k)).conn) := by
          have hmore : ¬ (readContiguousPrimitivePostData c (min bufferSize k)).bytes.length = k := by omega
          unfold payloadRead
          dsimp only
          rw [if_neg (by omega), if_neg hfailed, if_neg hmore]
          rfl
        rw [← hunread]
        exact Relays.read hk hread (ih _ (by omega) hafter.proper (by omega) rfl)

/-- A payload that arrives whole: its last bytes are lost with a failure behind it, otherwise it is
forwarded and the next size line is read. -/
theorem relays_payload (hsize : 0 < bufferSize) (hproper : Fragments.Proper c.socket) (hk : 0 < k)
    (hlong : k ≤ c.unread.length) :
    (LostAt c k → ∃ r, Relays bufferSize c k r ∧ r.length < k) ∧
      (¬ LostAt c k → ∃ c₁ c₂, c.After k c₁ ∧
        c₁.After (readContiguousPrimitivePostData c₁ 2).bytes.length c₂ ∧
          ∀ r, Relays bufferSize c₂ 0 r → Relays bufferSize c k (c.unread.take k ++ r)) := by
  induction hN : c.unread.length using Nat.strong_induction_on generalizing c k with
  | _ N ih =>
    subst hN
    obtain ⟨hafter, hle, hne, hfails⟩ := read_after hproper (min bufferSize k)
    set bs := (readContiguousPrimitivePostData c (min bufferSize k)).bytes with hbs
    set c' := (readContiguousPrimitivePostData c (min bufferSize k)).conn with hc'
    have hnil : c.unread ≠ [] := by
      intro hnil
      rw [hnil, List.length_nil] at hlong
      omega
    have hpos := List.length_pos_iff.mpr (hne (by omega) hnil)
    have htake : bs = c.unread.take bs.length := by
      rw [← read_unread c (min bufferSize k), List.take_left]
    have hfailed : ¬ (readContiguousPrimitivePostData c (min bufferSize k)).failed = true := by
      intro hfailed
      obtain ⟨-, hsocket, hshort⟩ := hfails.mp hfailed
      rw [Conn.unread, hsocket, List.flatten_nil, List.append_nil] at hlong
      omega
    have hlength := hafter.length
    by_cases hend : bs.length = k
    · rw [hend] at hafter
      have hcrlf := @read_two_failed c' hafter.proper
      rw [lostAt_after hafter, Nat.add_zero] at hcrlf
      have hread : payloadRead bufferSize k c =
          if (readContiguousPrimitivePostData c' 2).failed then none
          else some (bs, k - bs.length, (readContiguousPrimitivePostData c' 2).conn) := by
        unfold payloadRead
        dsimp only
        rw [← hbs, ← hc', if_neg (by omega), if_neg hfailed, if_pos hend]
      refine ⟨fun hlost => ?_, fun hnot => ?_⟩
      · rw [if_pos (hcrlf.mpr hlost)] at hread
        exact ⟨[], Relays.lost (by omega) hread, hk⟩
      · rw [if_neg (mt hcrlf.mp hnot), hend, Nat.sub_self] at hread
        refine ⟨c', _, hafter, (read_after hafter.proper 2).1, fun r hr => ?_⟩
        rw [← hend, ← htake]
        exact Relays.read (by omega) (hend ▸ hread) hr
    · have hread : payloadRead bufferSize k c = some (bs, k - bs.length, c') := by
        unfold payloadRead
        dsimp only
        rw [← hbs, ← hc', if_neg (by omega), if_neg hfailed, if_neg hend]
        rfl
      obtain ⟨hlost, hnot⟩ := ih c'.unread.length (by omega) hafter.proper
        (by omega : 0 < k - bs.length) (by omega) rfl
      have hsame : LostAt c' (k - bs.length) ↔ LostAt c k := by
        rw [lostAt_after hafter, Nat.add_sub_cancel' (by omega)]
      rw [hsame] at hlost hnot
      refine ⟨fun h => ?_, fun h => ?_⟩
      · obtain ⟨r, hr, hlt⟩ := hlost h
        refine ⟨bs ++ r, Relays.read (by omega) hread hr, ?_⟩
        rw [List.length_append]
        omega
      · obtain ⟨c₁, c₂, hafter₁, hafter₂, hrelays⟩ := hnot h
        have hk' : k = bs.length + (k - bs.length) := by omega
        refine ⟨c₁, c₂, ?_, hafter₂, fun r hr => ?_⟩
        · rw [hk']
          exact hafter.trans hafter₁
        · have hsplit : c.unread.take k = bs ++ c'.unread.take (k - bs.length) := by
            rw [← read_unread c (min bufferSize k), ← hbs, ← hc', List.take_append,
              List.take_of_length_le (by omega)]
          rw [hsplit, List.append_assoc]
          exact Relays.read (by omega) hread (hrelays r hr)

end

/-! ## A size line -/

section

variable {c c' : Conn} {buffer chars : Str} {room : Nat}

theorem readSizeChars_after (hproper : Fragments.Proper c.socket)
    (h : readSizeChars c buffer room = some (chars, c')) : ∃ n, c.After n c' := by
  induction room generalizing c buffer with
  | zero =>
    unfold readSizeChars at h
    dsimp only at h
    split_ifs at h
    cases h
    exact ⟨_, (read_after hproper 1).1⟩
  | succ room ih =>
    have hafter := (read_after hproper 1).1
    unfold readSizeChars at h
    dsimp only at h
    split at h
    · split_ifs at h
      · cases h
        exact ⟨_, hafter⟩
      · cases h
        exact ⟨_, hafter⟩
      · obtain ⟨n, hrest⟩ := ih hafter.proper h
        exact ⟨_, hafter.trans hrest⟩
    · exact absurd h nofun

theorem readSizeLine_after {dataToRead : Nat} (hproper : Fragments.Proper c.socket)
    (h : readSizeLine c = some (dataToRead, c')) : ∃ n, c.After n c' := by
  unfold readSizeLine at h
  split at h
  · exact absurd h nofun
  · rename_i chars c₁ hchars
    obtain ⟨n, hafter⟩ := readSizeChars_after hproper hchars
    dsimp only at h
    split_ifs at h
    cases h
    exact ⟨_, hafter.trans (read_after hafter.proper 1).1⟩

theorem readSizeChars_none (hproper : Fragments.Proper c.socket) (hcr : ch '\r' ∉ c.unread)
    (hroom : c.unread.length ≤ room) : readSizeChars c buffer room = none := by
  induction room generalizing c buffer with
  | zero =>
    have hle := (read_after hproper 1).1.length_le
    unfold readSizeChars
    exact if_pos (by omega)
  | succ room ih =>
    unfold readSizeChars
    dsimp only
    cases hunread : c.unread with
    | nil =>
      have hle := (read_after hproper 1).1.length_le
      rw [hunread] at hle
      rw [List.length_eq_zero_iff.mp (Nat.le_zero.mp hle)]
    | cons b u =>
      obtain ⟨c₁, hread, hu, hproper₁, -⟩ := read_one hproper hunread
      rw [hunread] at hcr hroom
      have hb : b ≠ ch '\r' := fun h => hcr (h ▸ List.mem_cons_self)
      rw [hread]
      dsimp only
      rw [if_neg hb, if_neg Bool.false_ne_true]
      apply ih hproper₁
      · rw [hu]
        exact fun h => hcr (List.mem_cons_of_mem b h)
      · rw [hu]
        simpa using hroom

/-- **A size line** from a source that starts as the line does: it is read where it has arrived with one
byte more than its CR, and otherwise nothing is left to come. -/
theorem readSizeLine_of_front {line rest : Str} (hproper : Fragments.Proper c.socket)
    (hfront : c.unread <+: line ++ crlf ++ rest) :
    ((sizeChars line).length + 2 ≤ c.unread.length → ∃ c₁,
        readSizeLine c = some (sizeOf (sizeChars line), c₁) ∧ c.After ((sizeChars line).length + 2) c₁) ∧
      (c.unread.length < (sizeChars line).length + 2 → readSizeLine c = none ∨ ∃ c₁,
        readSizeLine c = some (sizeOf (sizeChars line), c₁) ∧ c₁.unread = []) := by
  obtain ⟨b, d, u, hsplit, hcr, hend⟩ := sizeLine_split line rest
  set t := sizeChars line with ht
  rw [hsplit] at hfront
  have htake : c.unread.take t.length <+: t := by
    have h := List.prefix_of_prefix_length_le ((List.take_prefix t.length c.unread).trans hfront)
      (List.prefix_append t (b :: d :: u)) (List.length_take_le _ _)
    exact h
  have hroom : t.length ≤ 19 := hend.elim And.right le_of_eq
  refine ⟨fun hlong => ?_, fun hshort => ?_⟩
  · have hfull : c.unread.take t.length = t := htake.eq_of_length (List.length_take_of_le (by omega))
    obtain ⟨b', d', u', hunread⟩ := exists_two_of_length hlong
    rw [hfull] at hunread
    rw [hunread, List.prefix_append_right_inj] at hfront
    obtain rfl : b' = b := (List.cons_prefix_cons.mp hfront).1
    obtain ⟨c₁, hread, hu, -⟩ := readSizeLine_eq hcr hend hproper hunread
    obtain ⟨n, hafter⟩ := readSizeLine_after hproper hread
    have hlength := congrArg List.length hunread
    simp only [List.length_append, List.length_cons] at hlength
    have hleft := hafter.length
    have hle := hafter.length_le
    rw [hu] at hleft
    obtain rfl : n = t.length + 2 := by omega
    exact ⟨c₁, hread, hafter⟩
  · by_cases hline : c.unread.length ≤ t.length
    · left
      rw [List.take_of_length_le hline] at htake
      unfold readSizeLine
      rw [readSizeChars_none hproper (fun h => hcr (htake.subset h)) (hline.trans hroom)]
    · have hunread : c.unread = t ++ [b] := by
        rw [List.prefix_iff_eq_take.mp hfront, List.take_append, List.take_of_length_le (by omega)]
        obtain hone : c.unread.length - t.length = 1 := by omega
        rw [hone]
        rfl
      obtain ⟨c₁, hchars, hu, hproper₁, -⟩ := readSizeChars_eq hcr hend hproper hunread []
      have hnil : (readContiguousPrimitivePostData c₁ 1).conn.unread = [] := by
        rw [(read_after hproper₁ 1).1.unread, hu, List.drop_nil]
      unfold readSizeLine
      rw [hchars]
      dsimp only
      split_ifs
      · exact Or.inl rfl
      · exact Or.inr ⟨_, rfl, hnil⟩

end

/-! ## The chunks -/

/-- Each chunk of which some payload arrives, `n` bytes coming before them: it has no extension, no
fragment ends inside the CRLF before it, and nothing fails at the CRLF behind it. -/
def AllForwarded (c : Conn) : Nat → List Chunk → Prop
  | _, [] => True
  | n, chunk :: chunks =>
    (n + chunk.line.length + 2 < c.unread.length → chunk.ext = [] ∧ (n ≠ 0 → ¬ c.CutAt (n - 1)) ∧
      ¬ LostAt c (n + chunk.line.length + 2 + chunk.payload.length)) ∧
    AllForwarded c (n + chunk.encode.length) chunks

theorem payloadWithin_zero (chunks : List Chunk) : payloadWithin 0 chunks = [] := by
  induction chunks with
  | nil => rfl
  | cons chunk chunks ih => rw [payloadWithin, Nat.zero_sub, Nat.zero_sub, List.take_zero, ih]; rfl

section

variable {bufferSize n : Nat} {c c₀ : Conn} {chunk : Chunk} {chunks : List Chunk} {line rest : Str}

theorem allForwarded_of_le (hle : c₀.unread.length ≤ n) : AllForwarded c₀ n chunks := by
  induction chunks generalizing n with
  | nil => trivial
  | cons chunk chunks ih => exact ⟨fun h => by omega, ih (by omega)⟩

theorem payloadWithin_of_le (hle : n ≤ chunk.line.length + 2) : payloadWithin n (chunk :: chunks) = [] := by
  have hencode := chunk.encode_length
  have hzero : n - chunk.encode.length = 0 := by omega
  rw [payloadWithin, hzero, payloadWithin_zero, Nat.sub_eq_zero_of_le hle, List.take_zero]
  rfl

theorem payloadWithin_ne_nil (hlt : chunk.line.length + 2 < n) : payloadWithin n (chunk :: chunks) ≠ [] := by
  rw [payloadWithin]
  intro hnil
  have hpos := List.length_pos_iff.mpr chunk.payload_ne
  have hlen := congrArg List.length (List.append_eq_nil_iff.mp hnil).1
  rw [List.length_take, List.length_nil] at hlen
  omega

theorem relays_zero (hproper : Fragments.Proper c.socket) (hfront : c.unread <+: line ++ crlf ++ rest)
    (hzero : sizeOf (sizeChars line) = 0) : Relays bufferSize c 0 [] := by
  obtain ⟨hlong, hshort⟩ := readSizeLine_of_front hproper hfront
  rw [hzero] at hlong hshort
  by_cases h : (sizeChars line).length + 2 ≤ c.unread.length
  · obtain ⟨c₁, hread, -⟩ := hlong h
    exact Relays.last hread
  · obtain hnone | ⟨c₁, hread, -⟩ := hshort (by omega)
    · exact Relays.no_line hnone
    · exact Relays.last hread

theorem Chunk.sizeChars_line (hext : chunk.ext = []) : sizeChars chunk.line = chunk.line := by
  have hshort := chunk.short
  rw [Chunk.line, hext, List.append_nil]
  exact sizeChars_of_plain chunk.hex (by omega)

theorem Chunk.size_line (hext : chunk.ext = []) :
    sizeOf (sizeChars chunk.line) = chunk.payload.length :=
  chunk.sizeOf_line.elim And.right fun h => absurd hext h.1

theorem Chunk.payload_length_ne : chunk.payload.length ≠ 0 :=
  Nat.pos_iff_ne_zero.mp (List.length_pos_iff.mpr chunk.payload_ne)

/-- No payload of the chunk arrives: nothing is forwarded. -/
theorem relays_before_payload (hsize : 0 < bufferSize) (hproper : Fragments.Proper c.socket)
    (hfront : c.unread <+: chunk.line ++ crlf ++ rest) (hshort : c.unread.length ≤ chunk.line.length + 2) :
    Relays bufferSize c 0 [] := by
  obtain ⟨hext, -⟩ | ⟨-, hzero⟩ := chunk.sizeOf_line
  · obtain ⟨hread, hnoread⟩ := readSizeLine_of_front hproper hfront
    rw [Chunk.sizeChars_line hext] at hread hnoread
    have hstop : ∀ c₁, readSizeLine c = some (sizeOf chunk.line, c₁) → c₁.unread = [] →
        Relays bufferSize c 0 [] := by
      intro c₁ hline hnil
      have hsizeOf := Chunk.size_line hext
      rw [Chunk.sizeChars_line hext] at hsizeOf
      rw [hsizeOf] at hline
      obtain ⟨m, hafter⟩ := readSizeLine_after hproper hline
      have hrelays := @relays_part bufferSize chunk.payload.length c₁ hsize hafter.proper
        (by rw [hnil]; exact List.length_pos_iff.mpr chunk.payload_ne)
      rw [hnil] at hrelays
      exact Relays.line hline Chunk.payload_length_ne hrelays
    by_cases h : chunk.line.length + 2 ≤ c.unread.length
    · obtain ⟨c₁, hline, hafter⟩ := hread h
      refine hstop c₁ hline ?_
      rw [hafter.unread, List.drop_eq_nil_iff]
      exact hshort
    · obtain hnone | ⟨c₁, hline, hnil⟩ := hnoread (by omega)
      · exact Relays.no_line hnone
      · exact hstop c₁ hline hnil
  · exact relays_zero hproper hfront hzero

/-- **A chunk of which some payload arrives.** -/
theorem relays_chunk (hsize : 0 < bufferSize) (hproper : Fragments.Proper c.socket) (hext : chunk.ext = [])
    (hfront : c.unread <+: chunk.line ++ crlf ++ (chunk.payload ++ crlf ++ rest))
    (hlong : chunk.line.length + 2 < c.unread.length) :
    (c.unread.length < chunk.line.length + 2 + chunk.payload.length →
        Relays bufferSize c 0 (chunk.payload.take (c.unread.length - (chunk.line.length + 2)))) ∧
      (chunk.line.length + 2 + chunk.payload.length ≤ c.unread.length →
        (LostAt c (chunk.line.length + 2 + chunk.payload.length) →
          ∃ r, Relays bufferSize c 0 r ∧ r.length < chunk.payload.length) ∧
        (¬ LostAt c (chunk.line.length + 2 + chunk.payload.length) → ∃ c₂,
          (c.unread.length < chunk.encode.length → c₂.unread = [] ∧ Fragments.Proper c₂.socket) ∧
          (chunk.encode.length ≤ c.unread.length → ¬ c.CutAt (chunk.encode.length - 1) →
            c.After chunk.encode.length c₂) ∧
          (chunk.encode.length ≤ c.unread.length → c.CutAt (chunk.encode.length - 1) →
            c.After (chunk.encode.length - 1) c₂) ∧
          ∀ r, Relays bufferSize c₂ 0 r → Relays bufferSize c 0 (chunk.payload ++ r))) := by
  have hencode := chunk.encode_length
  have hpos := List.length_pos_iff.mpr chunk.payload_ne
  obtain ⟨c₁, hline, hafter⟩ := (readSizeLine_of_front hproper hfront).1
    (by rw [Chunk.sizeChars_line hext]; omega)
  rw [Chunk.size_line hext] at hline
  rw [Chunk.sizeChars_line hext] at hafter
  have hlength := hafter.length
  have htail : c₁.unread <+: chunk.payload ++ crlf ++ rest := by
    rw [hafter.unread]
    have hdrop := hfront.drop (chunk.line.length + 2)
    have hwhole : (chunk.line ++ crlf).length = chunk.line.length + 2 := List.length_append
    rwa [← hwhole, List.drop_left, hwhole] at hdrop
  have hline_relays : ∀ r, Relays bufferSize c₁ chunk.payload.length r → Relays bufferSize c 0 r :=
    fun r hr => Relays.line hline Chunk.payload_length_ne hr
  have htake : ∀ m, m ≤ chunk.payload.length → m ≤ c₁.unread.length →
      c₁.unread.take m = chunk.payload.take m := by
    intro m hm hm'
    rw [List.prefix_iff_eq_take.mp htail, List.take_take, Nat.min_eq_left hm', List.append_assoc,
      List.take_append_of_le_length hm]
  refine ⟨fun hshort => ?_, fun hwhole => ⟨fun hlost => ?_, fun hnot => ?_⟩⟩
  · apply hline_relays
    rw [← hlength, ← htake _ (by omega) le_rfl, List.take_length]
    exact relays_part hsize hafter.proper (by omega)
  · obtain ⟨r, hr, hlt⟩ := (relays_payload hsize hafter.proper hpos (by omega)).1
      ((lostAt_after hafter).mpr hlost)
    exact ⟨r, hline_relays r hr, hlt⟩
  · obtain ⟨c', c₂, hafter', hafter₂, hrelays⟩ := (relays_payload hsize hafter.proper hpos (by omega)).2
      (mt (lostAt_after hafter).mp hnot)
    have hto := hafter.trans hafter'
    have hrest := hto.length
    obtain ⟨hends, hfull, hhalf⟩ := read_two_length hto.proper
    have hcut : c'.CutAt 1 ↔ c.CutAt (chunk.encode.length - 1) := by
      rw [hto.cuts 1 Nat.one_pos]
      congr! 1
      omega
    refine ⟨c₂, fun hshort => ⟨?_, hafter₂.proper⟩, fun hlong' hno => ?_, fun hlong' hyes => ?_, ?_⟩
    · rw [hafter₂.unread, hends (by omega), List.drop_length]
    · have h := hto.trans hafter₂
      rw [hfull (by omega) (mt hcut.mp hno)] at h
      have hsum : chunk.line.length + 2 + chunk.payload.length + 2 = chunk.encode.length := by omega
      rwa [hsum] at h
    · have h := hto.trans hafter₂
      rw [hhalf (by omega) (hcut.mpr hyes)] at h
      have hsum : chunk.line.length + 2 + chunk.payload.length + 1 = chunk.encode.length - 1 := by omega
      rwa [hsum] at h
    · intro r hr
      apply hline_relays
      have h := hrelays r hr
      rwa [htake _ le_rfl (by omega), List.take_length] at h

/-- Behind a CRLF that was cut nothing is forwarded any more. -/
theorem relays_after_cut (hproper : Fragments.Proper c.socket)
    (hfront : c.unread <+: ch '\n' :: (chunks.flatMap Chunk.encode ++ (line ++ crlf ++ rest))) :
    Relays bufferSize c 0 [] := by
  cases chunks with
  | nil => exact relays_zero hproper hfront (sizeOf_lf line)
  | cons chunk chunks =>
    have hsplit : ch '\n' :: ((chunk :: chunks).flatMap Chunk.encode ++ (line ++ crlf ++ rest)) =
        (ch '\n' :: chunk.line) ++ crlf ++ (chunk.payload ++ crlf ++
          (chunks.flatMap Chunk.encode ++ (line ++ crlf ++ rest))) := by
      simp [Chunk.encode]
    rw [hsplit] at hfront
    exact relays_zero hproper hfront (sizeOf_lf chunk.line)

/-- After a cut the condition says that no more payload arrives. -/
theorem allForwarded_after_cut (hn : n ≠ 0) (hcut : c₀.CutAt (n - 1)) :
    payloadWithin (c₀.unread.length - n) chunks = [] ↔ AllForwarded c₀ n chunks := by
  cases chunks with
  | nil => exact iff_of_true rfl trivial
  | cons chunk chunks =>
    have hencode := chunk.encode_length
    by_cases hle : c₀.unread.length - n ≤ chunk.line.length + 2
    · exact iff_of_true (payloadWithin_of_le hle) ⟨fun h => by omega, allForwarded_of_le (by omega)⟩
    · exact iff_of_false (payloadWithin_ne_nil (by omega)) fun h => (h.1 (by omega)).2.1 hn hcut

/-- What is behind a chunk, in a source that may end in it. -/
theorem front_drop {chunk : Chunk} {rest' : Str}
    (hfront : c.unread <+: chunk.line ++ crlf ++ (chunk.payload ++ crlf ++ rest')) :
    c.unread.drop chunk.encode.length <+: rest' := by
  have hdrop := hfront.drop chunk.encode.length
  have hwritten : chunk.line ++ crlf ++ (chunk.payload ++ crlf ++ rest') = chunk.encode ++ rest' := by
    simp [Chunk.encode]
  rwa [hwritten, List.drop_left] at hdrop

/-- The same from the LF of its last CRLF on. -/
theorem front_drop_half {chunk : Chunk} {rest' : Str}
    (hfront : c.unread <+: chunk.line ++ crlf ++ (chunk.payload ++ crlf ++ rest')) :
    c.unread.drop (chunk.encode.length - 1) <+: ch '\n' :: rest' := by
  have hwritten : chunk.line ++ crlf ++ (chunk.payload ++ crlf ++ rest') =
      (chunk.line ++ crlf ++ (chunk.payload ++ [ch '\r'])) ++ ch '\n' :: rest' := by
    simp [crlf]
  have hlength : (chunk.line ++ crlf ++ (chunk.payload ++ [ch '\r'])).length = chunk.encode.length - 1 := by
    rw [chunk.encode_length]
    simp [crlf]
    omega
  have hdrop := hfront.drop (chunk.encode.length - 1)
  rwa [hwritten, ← hlength, List.drop_left, hlength] at hdrop

/-- A chunk whose payload is reached, and the ones behind it. -/
theorem allForwarded_cons {chunk : Chunk} {chunks : List Chunk} (hafter : c₀.After n c)
    (hcut : n ≠ 0 → ¬ c₀.CutAt (n - 1)) (hext : chunk.ext = []) (hlong : chunk.line.length + 2 < c.unread.length) :
    AllForwarded c₀ n (chunk :: chunks) ↔ ¬ LostAt c (chunk.line.length + 2 + chunk.payload.length) ∧
      AllForwarded c₀ (n + chunk.encode.length) chunks := by
  have hlength := hafter.length
  have hle := hafter.length_le
  have hlost : LostAt c (chunk.line.length + 2 + chunk.payload.length) ↔
      LostAt c₀ (n + chunk.line.length + 2 + chunk.payload.length) := by
    rw [lostAt_after hafter]
    congr! 1
    omega
  rw [hlost]
  constructor
  · exact fun h => ⟨(h.1 (by omega)).2.2, h.2⟩
  · exact fun h => ⟨fun _ => ⟨hext, hcut, h.1⟩, h.2⟩

/-- **The chunks**, from a source that starts as they do. -/
theorem relays_chunks (hsize : 0 < bufferSize) (hafter : c₀.After n c)
    (hcut : n ≠ 0 → ¬ c₀.CutAt (n - 1))
    (hfront : c.unread <+: chunks.flatMap Chunk.encode ++ (line ++ crlf ++ rest))
    (hlast : sizeOf (sizeChars line) = 0) : ∃ r, Relays bufferSize c 0 r ∧
      (r = payloadWithin c.unread.length chunks ↔ AllForwarded c₀ n chunks) := by
  induction chunks generalizing n c with
  | nil => exact ⟨[], relays_zero hafter.proper hfront hlast, iff_of_true rfl trivial⟩
  | cons chunk chunks ih =>
    have hlength := hafter.length
    have hle := hafter.length_le
    have hencode := chunk.encode_length
    set rest' := chunks.flatMap Chunk.encode ++ (line ++ crlf ++ rest) with hrest'
    have hsplit : (chunk :: chunks).flatMap Chunk.encode ++ (line ++ crlf ++ rest) =
        chunk.line ++ crlf ++ (chunk.payload ++ crlf ++ rest') := by
      rw [hrest']
      simp [Chunk.encode]
    rw [hsplit] at hfront
    by_cases hshort : c.unread.length ≤ chunk.line.length + 2
    · refine ⟨[], relays_before_payload hsize hafter.proper hfront hshort, iff_of_true ?_ ?_⟩
      · exact (payloadWithin_of_le hshort).symm
      · exact ⟨fun h => by omega, allForwarded_of_le (by omega)⟩
    · by_cases hext : chunk.ext = []
      · obtain ⟨hpart, hwhole⟩ := relays_chunk hsize hafter.proper hext hfront (by omega)
        rw [allForwarded_cons hafter hcut hext (by omega), payloadWithin]
        by_cases hall : chunk.line.length + 2 + chunk.payload.length ≤ c.unread.length
        · obtain ⟨hloses, hkeeps⟩ := hwhole hall
          rw [List.take_of_length_le (by omega)]
          by_cases hl : LostAt c (chunk.line.length + 2 + chunk.payload.length)
          · obtain ⟨r, hr, hlt⟩ := hloses hl
            refine ⟨r, hr, iff_of_false ?_ fun h => h.1 hl⟩
            intro heq
            rw [heq, List.length_append] at hlt
            omega
          · obtain ⟨c₂, hends, hgoes, hcuts, hrelays⟩ := hkeeps hl
            have hcut_iff : c.CutAt (chunk.encode.length - 1) ↔ c₀.CutAt (n + chunk.encode.length - 1) := by
              rw [hafter.cuts _ (by omega)]
              congr! 1
              omega
            rcases Nat.lt_or_ge c.unread.length chunk.encode.length with hends_early | hcrlf
            · -- The connection ends inside the CRLF.
              have hzero : c.unread.length - chunk.encode.length = 0 := by omega
              have hnone := readSizeLine_nil (hends hends_early).1
              refine ⟨_, hrelays [] (Relays.no_line hnone), iff_of_true ?_ ⟨hl, allForwarded_of_le (by omega)⟩⟩
              rw [hzero, payloadWithin_zero]
            · have hfront' := front_drop hfront
              have hleft : c₀.unread.length - (n + chunk.encode.length) =
                  c.unread.length - chunk.encode.length := by omega
              by_cases hcutHere : c.CutAt (chunk.encode.length - 1)
              · have hhalf := hcuts hcrlf hcutHere
                have hrest_relays : Relays bufferSize c₂ 0 [] := by
                  refine @relays_after_cut bufferSize c₂ chunks line rest hhalf.proper ?_
                  rw [hhalf.unread]
                  exact front_drop_half hfront
                refine ⟨_, hrelays [] hrest_relays, ?_⟩
                rw [List.append_right_inj, ← hleft, eq_comm,
                  allForwarded_after_cut (by omega) (hcut_iff.mp hcutHere)]
                exact (and_iff_right hl).symm
              · have hnext := hafter.trans (hgoes hcrlf hcutHere)
                obtain ⟨r, hr, hiff⟩ := ih hnext (fun _ => mt hcut_iff.mpr hcutHere)
                  (by rwa [(hgoes hcrlf hcutHere).unread])
                refine ⟨_, hrelays r hr, ?_⟩
                rw [List.append_right_inj, ← (hgoes hcrlf hcutHere).length, hiff]
                exact (and_iff_right hl).symm
        · have hnot : ¬ LostAt c (chunk.line.length + 2 + chunk.payload.length) := by
            rintro ⟨-, h | ⟨h, -⟩⟩ <;> omega
          have hzero : c.unread.length - chunk.encode.length = 0 := by omega
          refine ⟨_, hpart (by omega), iff_of_true ?_ ⟨hnot, allForwarded_of_le (by omega)⟩⟩
          rw [hzero, payloadWithin_zero, List.append_nil]
      · have hzero := (chunk.sizeOf_line.resolve_left fun h => hext h.1).2
        refine ⟨[], relays_zero hafter.proper hfront hzero, iff_of_false ?_ ?_⟩
        · exact (payloadWithin_ne_nil (by omega)).symm
        · exact fun h => hext (h.1 (by omega)).1

end

/-! ## Every framing -/

/-- A length that is not 0 arrives whole, or the socket fails before; behind the length 0 nothing comes. -/
def Framing.Met : Framing → Conn → Prop
  | length text, c =>
    if contentLength ⟨text, none⟩ = 0 then c.unread = []
    else contentLength ⟨text, none⟩ ≤ c.unread.length ∨ c.broken = true
  | chunked body, c => AllForwarded c 0 body.chunks
  | close, _ => True

section

variable {bufferSize : Nat} {c : Conn}

theorem exact_close_iff (hsize : 0 < bufferSize) (hproper : Fragments.Proper c.socket) :
    Exact bufferSize .close c ↔ Framing.Met .close c := by
  refine iff_of_true ⟨c.unread.length + 1, ⟨true, c.unread⟩, fun fuel hfuel => ?_, rfl⟩ trivial
  exact plainLoop_close hsize hproper hfuel []

theorem exact_length_iff (hsize : 0 < bufferSize) (hproper : Fragments.Proper c.socket) (text : Str) :
    Exact bufferSize (.length text) c ↔ Framing.Met (.length text) c := by
  have hrun : ∀ fuel, readPayLoad bufferSize fuel (Framing.length text).response c =
      plainLoop bufferSize (contentLength ⟨text, none⟩) fuel c (contentLength ⟨text, none⟩) [] :=
    fun _ => rfl
  unfold Exact Framing.Met
  simp only [hrun, Framing.bodyOf]
  by_cases hzero : contentLength ⟨text, none⟩ = 0
  · rw [if_pos hzero, hzero]
    constructor
    · rintro ⟨reads, relay, hrelay, hforwarded⟩
      have h := hrelay (reads + c.unread.length + 1) (by omega)
      rw [plainLoop_close hsize hproper (by omega), List.nil_append] at h
      obtain rfl := Option.some.inj h
      exact hforwarded
    · intro hnil
      refine ⟨c.unread.length + 1, ⟨true, c.unread⟩, fun fuel hfuel => ?_, hnil⟩
      exact plainLoop_close hsize hproper hfuel []
  · rw [if_neg hzero]
    constructor
    · rintro ⟨reads, relay, hrelay, -⟩
      by_contra hnot
      obtain ⟨hshort, hopen⟩ := not_or.mp hnot
      have h := hrelay reads le_rfl
      rw [plainLoop_never hzero hsize hproper (by omega) (by simpa using hopen)] at h
      exact absurd h nofun
    · intro hends
      refine ⟨c.unread.length + 1, ⟨true, _⟩, fun fuel hfuel => ?_, rfl⟩
      exact plainLoop_length hzero hsize hproper (by omega) hends hfuel []

theorem exact_chunked_iff (hsize : 0 < bufferSize) (hproper : Fragments.Proper c.socket) {body : Body}
    (hsends : (Framing.chunked body).Sends c.unread) :
    Exact bufferSize (.chunked body) c ↔ Framing.Met (.chunked body) c := by
  obtain ⟨rest, hfront⟩ := hsends
  rw [body.encode_append] at hfront
  obtain ⟨r, ⟨ok, hrun⟩, hiff⟩ := relays_chunks hsize (Conn.After.refl hproper) (fun h => absurd rfl h)
    hfront body.sizeOf_lastLine
  refine Iff.trans ?_ hiff
  constructor
  · rintro ⟨reads, relay, hrelay, hforwarded⟩
    have h := hrelay (reads + c.unread.length + 1) (by omega)
    have hloop : readPayLoad bufferSize (reads + c.unread.length + 1) (Framing.chunked body).response c =
        chunkedLoop bufferSize (reads + c.unread.length + 1) c 0 [] := rfl
    rw [hloop, hrun _ [] (by omega), List.nil_append] at h
    obtain rfl := Option.some.inj h
    exact hforwarded
  · intro hall
    exact ⟨c.unread.length + 1, ⟨ok, r⟩, fun fuel hfuel => hrun fuel [] hfuel, hall⟩

end

theorem proper_singleton {f : Str} (hf : f ≠ []) : Fragments.Proper [f] :=
  List.forall_mem_singleton.mpr hf

end MyServer.Proxy
