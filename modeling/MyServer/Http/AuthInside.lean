import MyServer.Http.RangeInside

/-!
# Where the Authorization line is read

The base64 decoder is told how much there is to decode, and reads one character more at most.
-/

open MyServer.HeaderLines
open MyServer.ResponseHeader (strtok)

namespace MyServer.RequestHeader

/-! ## The decoder -/

/-- Without what it points to. -/
def Decoding.told (d : Decoding) : Decoding := { d with s := [] }

section

variable {count : Nat} {bufsize : Int}

/-- What is left of the line has the characters that are still told of. -/
theorem skipped_inside {r : Str} (hne : r ≠ []) (htold : (r.length : Int) + count = bufsize + 1) :
    (∀ more, skipped count (r ++ crlf ++ more) bufsize = none) ∨
      ∃ (r' : Str) (bufsize' : Int), (r'.length : Int) + count = bufsize' + 1 ∧
        ∀ more, skipped count (r ++ crlf ++ more) bufsize = some (r' ++ crlf ++ more, bufsize') := by
  induction r generalizing bufsize with
  | nil => exact absurd rfl hne
  | cons c r ih =>
    rw [List.length_cons] at htold
    by_cases hhigh : 128 ≤ c.toNat
    · exact Or.inl fun more => by rw [List.cons_append, List.cons_append, skipped, if_pos hhigh]
    · by_cases hskip : base64map c ≠ SKIP
      · refine Or.inr ⟨c :: r, bufsize, by rw [List.length_cons]; exact htold, fun more => ?_⟩
        rw [List.cons_append, List.cons_append, skipped, if_neg hhigh, if_pos hskip]
      · by_cases hlast : bufsize - 1 ≤ count
        · refine Or.inr ⟨r, bufsize - 1, by push_cast at htold ⊢; omega, fun more => ?_⟩
          rw [List.cons_append, List.cons_append, skipped, if_neg hhigh, if_neg hskip, if_pos hlast]
        · have hrest : r ≠ [] := by
            rintro rfl
            simp only [List.length_nil] at htold
            push_cast at htold
            omega
          have htold₁ : (r.length : Int) + count = bufsize - 1 + 1 := by
            push_cast at htold ⊢
            omega
          rcases ih hrest htold₁ with hnone | ⟨r', bufsize', htold', hsome⟩
          · refine Or.inl fun more => ?_
            rw [List.cons_append, List.cons_append, skipped, if_neg hhigh, if_neg hskip, if_neg hlast]
            exact hnone more
          · refine Or.inr ⟨r', bufsize', htold', fun more => ?_⟩
            rw [List.cons_append, List.cons_append, skipped, if_neg hhigh, if_neg hskip, if_neg hlast]
            exact hsome more

end

theorem decodeLoop_stopped {d : Decoding} {c : Byte} {rest : Str} (hs : d.s = c :: rest)
    (hstop : c = ch '=' ∨ d.bufsize < d.count) (fuel : Nat) : decodeLoop fuel d = some d := by
  cases fuel with
  | zero => rfl
  | succ fuel =>
    rw [decodeLoop, hs]
    exact if_pos hstop

/-- The loop at the characters that are left when some are passed over. -/
def decodeFrom (fuel : Nat) (d : Decoding) : Option (Str × Int) → Option Decoding
  | some (c :: s, bufsize) => decodeLoop fuel (d.turn c s bufsize)
  | _ => none

theorem decodeLoop_turn {fuel : Nat} {d : Decoding} {c : Byte} {rest : Str} (hs : d.s = c :: rest)
    (hgoes : ¬ (c = ch '=' ∨ d.bufsize < d.count)) :
    decodeLoop (fuel + 1) d = decodeFrom fuel d (skipped d.count (c :: rest) d.bufsize) := by
  rw [decodeLoop, hs]
  dsimp only
  rw [if_neg hgoes]
  unfold decodeFrom
  rfl

/-- The end of the decoder. -/
def Decoding.finish (d : Decoding) : Str × Nat :=
  let part := (d.count - 1) % 4
  if part = 0 then (d.result, d.resultlen)
  else (d.result ++ bytesOf ((d.std <<< (6 * (4 - part))).sshiftRight 6), d.resultlen + (4 - part))

theorem decode_finish (input : Str) (bufsize : Nat) :
    decode input bufsize = (decodeLoop (bufsize + 1) ⟨input, 1, bufsize, 0, [], 0⟩).bind fun d =>
      if bufsize + 1 < d.finish.1.length then none else some d.finish := by
  unfold decode
  cases decodeLoop (bufsize + 1) ⟨input, 1, bufsize, 0, [], 0⟩ <;> rfl

/-- What is behind the line is not decoded. -/
theorem decodeLoop_inside (fuel : Nat) {d : Decoding} {r : Str} (htold : (r.length : Int) + d.count = d.bufsize + 1)
    (more more' : Str) :
    (decodeLoop fuel { d with s := r ++ crlf ++ more }).map Decoding.told =
      (decodeLoop fuel { d with s := r ++ crlf ++ more' }).map Decoding.told := by
  induction fuel generalizing d r with
  | zero => rfl
  | succ fuel ih =>
    obtain ⟨c, hc⟩ : ∃ c, ∀ more, ∃ rest, r ++ crlf ++ more = c :: rest := by
      cases r with
      | nil => exact ⟨ch '\r', fun more => ⟨_, rfl⟩⟩
      | cons c r => exact ⟨c, fun more => ⟨_, rfl⟩⟩
    by_cases hstop : c = ch '=' ∨ d.bufsize < d.count
    · have hstopped : ∀ more, decodeLoop (fuel + 1) { d with s := r ++ crlf ++ more } =
          some { d with s := r ++ crlf ++ more } := by
        intro more
        obtain ⟨rest, hrest⟩ := hc more
        exact @decodeLoop_stopped { d with s := r ++ crlf ++ more } c rest hrest hstop (fuel + 1)
      rw [hstopped, hstopped]
      rfl
    · have hturn : ∀ more, decodeLoop (fuel + 1) { d with s := r ++ crlf ++ more } =
          decodeFrom fuel d (skipped d.count (r ++ crlf ++ more) d.bufsize) := by
        intro more
        obtain ⟨rest, hrest⟩ := hc more
        rw [@decodeLoop_turn fuel { d with s := r ++ crlf ++ more } c rest hrest hstop, hrest]
        unfold decodeFrom
        rfl
      have hne : r ≠ [] := by
        rintro rfl
        rw [not_or] at hstop
        simp only [List.length_nil] at htold
        push_cast at htold
        omega
      rw [hturn more, hturn more']
      rcases skipped_inside hne htold with hnone | ⟨r', bufsize', htold', hsome⟩
      · rw [hnone, hnone]
      · rw [hsome, hsome]
        cases r' with
        | nil =>
          -- The end of the line is taken for a character, and it is the last one.
          have hdone : ∀ more, decodeLoop fuel (d.turn (ch '\r') (LF :: more) bufsize') =
              some (d.turn (ch '\r') (LF :: more) bufsize') := by
            intro more
            have hlt : bufsize' < (d.count + 1 : Nat) := by
              simp only [List.length_nil] at htold'
              push_cast at htold' ⊢
              omega
            unfold Decoding.turn
            split_ifs
            · exact decodeLoop_stopped rfl (Or.inr hlt) fuel
            · exact decodeLoop_stopped rfl (Or.inr hlt) fuel
          change Option.map _ (decodeLoop fuel (d.turn (ch '\r') (LF :: more) bufsize')) =
            Option.map _ (decodeLoop fuel (d.turn (ch '\r') (LF :: more') bufsize'))
          rw [hdone, hdone]
          unfold Decoding.turn
          split_ifs <;> rfl
        | cons b r' =>
          have hnext : (r'.length : Int) + (d.count + 1 : Nat) = bufsize' + 1 := by
            rw [List.length_cons] at htold'
            push_cast at htold' ⊢
            omega
          change Option.map _ (decodeLoop fuel (d.turn b (r' ++ crlf ++ more) bufsize')) =
            Option.map _ (decodeLoop fuel (d.turn b (r' ++ crlf ++ more') bufsize'))
          unfold Decoding.turn
          split_ifs
          · exact @ih ⟨[], d.count + 1, bufsize', 0,
              d.result ++ bytesOf (((d.std ||| base64map b) <<< 6).sshiftRight 6), d.resultlen + 3⟩ r' hnext
          · exact @ih ⟨[], d.count + 1, bufsize', (d.std ||| base64map b) <<< 6, d.result, d.resultlen⟩ r' hnext

theorem decode_inside (base64 more : Str) :
    decode (base64 ++ crlf ++ more) base64.length = decode (base64 ++ crlf) base64.length := by
  have hloop := @decodeLoop_inside (base64.length + 1) ⟨[], 1, base64.length, 0, [], 0⟩ base64 (by push_cast; rfl)
    more []
  rw [List.append_nil] at hloop
  have hfinish : ∀ input, decode input base64.length =
      ((decodeLoop (base64.length + 1) ⟨input, 1, base64.length, 0, [], 0⟩).map Decoding.told).bind fun d =>
        if base64.length + 1 < d.finish.1.length then none else some d.finish := by
    intro input
    rw [decode_finish]
    cases decodeLoop (base64.length + 1) ⟨input, 1, base64.length, 0, [], 0⟩ <;> rfl
  rw [hfinish, hfinish, hloop]

/-! ## Scans that go on behind a text -/

section

variable {characters text : Str} {max : Nat}

theorem getCharInString_front {n : Nat} (h : getCharInString characters text max = some n) (more : Str) :
    getCharInString characters (text ++ more) max = some n := by
  obtain ⟨line, c, after, rfl, rfl, hclean, hlt⟩ := getCharInString_some h
  induction line generalizing max with
  | nil =>
    obtain ⟨max, rfl⟩ := Nat.exists_eq_succ_of_ne_zero (by omega : max ≠ 0)
    simp only [List.nil_append, List.cons_append, getCharInString] at h ⊢
    split_ifs at h ⊢
    · rfl
    · obtain ⟨m, -, hm⟩ := Option.map_eq_some_iff.mp h
      exact absurd hm (Nat.succ_ne_zero m)
  | cons b line ih =>
    obtain ⟨max, rfl⟩ := Nat.exists_eq_succ_of_ne_zero (by omega : max ≠ 0)
    obtain ⟨hb, hclean⟩ := List.forall_mem_cons.mp hclean
    simp only [List.cons_append, getCharInString, hb.1, hb.2, if_false] at h ⊢
    obtain ⟨m, hm, hlength⟩ := Option.map_eq_some_iff.mp h
    obtain rfl : m = line.length := Nat.succ.inj hlength
    rw [ih hm hclean (by simpa using hlt)]
    rfl

theorem getCharInString_behind (hzero : (0 : Byte) ∉ text) (h : getCharInString characters text max = none)
    (more : Str) : getCharInString characters (text ++ more) max =
      (getCharInString characters more (max - text.length)).map (· + text.length) := by
  induction text generalizing max with
  | nil => simp
  | cons b text ih =>
    rw [List.mem_cons, not_or] at hzero
    cases max with
    | zero =>
      rw [Nat.zero_sub, List.cons_append]
      cases more <;> rfl
    | succ max =>
      have hb : ¬ b = 0 := fun heq => hzero.1 heq.symm
      rw [getCharInString, if_neg hb] at h
      rw [List.cons_append, getCharInString, if_neg hb]
      split_ifs at h ⊢
      rw [ih hzero.2 (by simpa using h), Option.map_map, List.length_cons, Nat.succ_sub_succ]
      congr 1

end

/-! ## The schemes -/

/-- The credentials are refused for their length, or they are decoded and there is a colon in what the
decoder tells of. -/
def BasicInside (base64 : Str) : Prop :=
  64 ≤ base64.length ∨
    ∃ decodedPw len, decode (base64 ++ crlf) base64.length = some (decodedPw, len) ∧
      decodedPw.idxOf (ch ':') < len

section

variable {value : Str}

theorem line_eq (htrimmed : value.head? ≠ some (ch ' ')) (more : Str) :
    (value ++ crlf ++ more).dropWhile (· = ch ' ') = value ++ crlf ++ more := by
  have hhead := head_append_crlf htrimmed more
  cases htext : value ++ crlf ++ more with
  | nil => rfl
  | cons c text =>
    rw [htext] at hhead
    exact List.dropWhile_cons_of_neg (by simpa using hhead)

theorem dropWhile_line (u more : Str) :
    (u ++ crlf ++ more).dropWhile (· = ch ' ') = u.dropWhile (· = ch ' ') ++ crlf ++ more := by
  induction u with
  | nil => exact List.dropWhile_cons_of_neg (by decide)
  | cons c u ih =>
    rw [List.cons_append, List.cons_append, List.dropWhile_cons, List.dropWhile_cons]
    split_ifs
    · exact ih
    · rfl

/-- Where the scheme ends inside the line. -/
theorem scheme_inside {tokenOff : Nat}
    (h : getCharInString (ascii " ") value HTTP_REQUEST_AUTH_DIM = some tokenOff) :
    tokenOff < value.length ∧ ∀ more, (value ++ crlf ++ more).take tokenOff = value.take tokenOff ∧
      (value ++ crlf ++ more).drop tokenOff = value.drop tokenOff ++ crlf ++ more := by
  obtain ⟨line, c, after, rfl, rfl, -, -⟩ := getCharInString_some h
  refine ⟨by simp, fun more => ⟨?_, ?_⟩⟩
  · rw [List.append_assoc, List.append_assoc, List.take_left, List.take_left]
  · rw [List.append_assoc, List.append_assoc, List.drop_left, List.drop_left, ← List.append_assoc]

/-- What a line gives when there is a space in it soon enough. -/
theorem readAuth_eq (htrimmed : value.head? ≠ some (ch ' ')) {tokenOff : Nat}
    (h : getCharInString (ascii " ") value HTTP_REQUEST_AUTH_DIM = some tokenOff) (more : Str) (digest : Digest)
    (lenOut : Nat) :
    readReqAuthLine (value ++ crlf ++ more) digest lenOut =
      if value.take tokenOff = ascii "Basic" then readBasic (value ++ crlf ++ more) digest 0
      else if value.take tokenOff = ascii "Digest" then
        let text := (value.drop tokenOff).dropWhile (· = ch ' ')
        readDigest (text ++ crlf ++ more) digest (value.length - text.length)
      else .ok ⟨value.take tokenOff, [], [], digest⟩ lenOut := by
  obtain ⟨hlt, hparts⟩ := scheme_inside h
  obtain ⟨htake, hdrop⟩ := hparts more
  have hscheme := getCharInString_front h (crlf ++ more)
  rw [← List.append_assoc] at hscheme
  have hsub : ∀ text : Str, (value ++ crlf ++ more).length - (text ++ crlf ++ more).length =
      value.length - text.length := by
    intro text
    simp only [List.length_append]
    omega
  unfold readReqAuthLine
  rw [line_eq htrimmed]
  dsimp only
  rw [hscheme]
  dsimp only
  rw [htake, hdrop, dropWhile_line, Nat.sub_self, hsub]

def basicCredentials (decodedPw : Str) (len : Nat) (digest : Digest) : Credentials where
  auth := ascii "Basic"
  login := cstr (decodedPw.take (decodedPw.idxOf (ch ':')))
  password := cstr ((decodedPw.drop (decodedPw.idxOf (ch ':') + 1)).take (len - decodedPw.idxOf (ch ':') - 1))
  digest := digest

/-- What **Basic** gives is refused, undefined, or what is decoded of the line itself. -/
theorem auth_basic_eq (hone : OneLine value) (htrimmed : value.head? ≠ some (ch ' ')) {tokenOff : Nat}
    (h : getCharInString (ascii " ") value HTTP_REQUEST_AUTH_DIM = some tokenOff)
    (hbasic : value.take tokenOff = ascii "Basic") (more : Str) (digest : Digest) (lenOut : Nat) :
    readReqAuthLine (value ++ crlf ++ more) digest lenOut =
      if (value.drop 6).length < 64 then
        match decode (value.drop 6 ++ crlf) (value.drop 6).length with
        | none => .undefined
        | some (decodedPw, len) =>
          if len ≤ decodedPw.idxOf (ch ':') then .undefined
          else .ok (basicCredentials decodedPw len digest) value.length
      else .error 400 := by
  obtain ⟨hlt, -⟩ := scheme_inside h
  have hfive : tokenOff = 5 := by
    have hlength := congrArg List.length hbasic
    rw [List.length_take, Nat.min_eq_left hlt.le] at hlength
    exact hlength
  have hdrop : (value ++ crlf ++ more).drop 6 = value.drop 6 ++ crlf ++ more := by
    rw [List.append_assoc, List.drop_append_of_le_length (by omega), ← List.append_assoc]
  have hone' : OneLine (value.drop 6) := fun b hb => hone b (List.mem_of_mem_drop hb)
  rw [readAuth_eq htrimmed h, if_pos hbasic]
  unfold readBasic
  rw [hdrop]
  dsimp only
  rw [getEndLine_value hone', getEndLine_value hone]
  by_cases hshort : (value.drop 6).length < 64
  · have hlong : value.length < 100 := by
      rw [List.length_drop] at hshort
      omega
    rw [if_pos hshort, if_pos hshort, if_pos hlong]
    dsimp only
    rw [decode_inside]
    cases decode (value.drop 6 ++ crlf) (value.drop 6).length with
    | none => rfl
    | some decoded => rfl
  · rw [if_neg hshort, if_neg hshort]

/-- **Basic**: it is refused or gives the same, whatever is behind the line, when it is read inside. -/
theorem auth_basic (hone : OneLine value) (htrimmed : value.head? ≠ some (ch ' ')) {tokenOff : Nat}
    (h : getCharInString (ascii " ") value HTTP_REQUEST_AUTH_DIM = some tokenOff)
    (hbasic : value.take tokenOff = ascii "Basic") :
    (BasicInside (value.drop 6) → ∃ credentials : Digest → Credentials, ∀ more digest lenOut,
      readReqAuthLine (value ++ crlf ++ more) digest lenOut = .error 400 ∨
        readReqAuthLine (value ++ crlf ++ more) digest lenOut = .ok (credentials digest) value.length) ∧
    (¬ BasicInside (value.drop 6) → ∀ more digest lenOut,
      readReqAuthLine (value ++ crlf ++ more) digest lenOut = .undefined) := by
  simp only [auth_basic_eq hone htrimmed h hbasic]
  unfold BasicInside
  by_cases hshort : (value.drop 6).length < 64
  · simp only [if_pos hshort]
    cases hdecode : decode (value.drop 6 ++ crlf) (value.drop 6).length with
    | none =>
      refine ⟨fun hinside => ?_, fun _ _ _ _ => rfl⟩
      obtain ⟨_, _, hsome, -⟩ := hinside.resolve_left (by omega)
      exact absurd hsome nofun
    | some decoded =>
      obtain ⟨decodedPw, len⟩ := decoded
      dsimp only
      by_cases hcolon : len ≤ decodedPw.idxOf (ch ':')
      · refine ⟨fun hinside => ?_, fun _ _ _ _ => if_pos hcolon⟩
        obtain ⟨_, _, hsome, hlt'⟩ := hinside.resolve_left (by omega)
        obtain ⟨rfl, rfl⟩ := Prod.mk.inj (Option.some.inj hsome)
        exact absurd hlt' (not_lt.mpr hcolon)
      · refine ⟨fun _ => ⟨basicCredentials decodedPw len, fun _ _ _ => Or.inr ?_⟩, fun hno =>
          absurd (Or.inr ⟨decodedPw, len, rfl, not_le.mp hcolon⟩) hno⟩
        rw [if_neg hcolon]
  · simp only [if_neg hshort]
    exact ⟨fun _ => ⟨fun digest => ⟨[], [], [], digest⟩, fun _ _ _ => Or.inl trivial⟩, fun hno =>
      absurd (Or.inl (not_lt.mp hshort)) hno⟩

def digestCredentials (text digestToken rest : Str) (digest : Digest) : Credentials where
  auth := ascii "Digest"
  login := (digestLoop (text.length + 1) (some digestToken) rest (digest, [])).2
  password := []
  digest := (digestLoop (text.length + 1) (some digestToken) rest (digest, [])).1

/-- **Digest** works on a copy of the line. -/
theorem auth_digest (hone : OneLine value) (htrimmed : value.head? ≠ some (ch ' ')) {tokenOff : Nat}
    (h : getCharInString (ascii " ") value HTTP_REQUEST_AUTH_DIM = some tokenOff)
    (hdigest : value.take tokenOff = ascii "Digest") :
    ∃ credentials : Digest → Credentials, ∀ more digest lenOut,
      readReqAuthLine (value ++ crlf ++ more) digest lenOut = .error 400 ∨
        readReqAuthLine (value ++ crlf ++ more) digest lenOut = .ok (credentials digest) value.length := by
  have hbasic : ¬ value.take tokenOff = ascii "Basic" := by
    rw [hdigest]
    decide
  set text := (value.drop tokenOff).dropWhile (· = ch ' ') with htext
  have hle : text.length ≤ value.length :=
    (List.dropWhile_suffix _).length_le.trans (List.drop_suffix _ _).length_le
  have hone' : OneLine text := fun b hb => hone b (List.mem_of_mem_drop ((List.dropWhile_suffix _).subset hb))
  have htake : ∀ more, (text ++ crlf ++ more).take text.length = text := by
    intro more
    rw [List.append_assoc, List.take_left]
  have hread : ∀ more digest lenOut, readReqAuthLine (value ++ crlf ++ more) digest lenOut =
      if text.length < 1024 then
        match strtok (ascii "=") text with
        | (none, _) => .error 400
        | (some digestToken, rest) => .ok (digestCredentials text digestToken rest digest) value.length
      else .error 400 := by
    intro more digest lenOut
    rw [readAuth_eq htrimmed h, if_neg hbasic, if_pos hdigest]
    dsimp only
    rw [← htext]
    unfold readDigest
    rw [getEndLine_value hone']
    by_cases hshort : text.length < 1024
    · rw [if_pos hshort, if_pos hshort]
      dsimp only
      rw [htake, Nat.add_sub_cancel' hle]
      rcases strtok (ascii "=") text with ⟨_ | digestToken, rest⟩ <;> rfl
    · rw [if_neg hshort, if_neg hshort]
  simp only [hread]
  split_ifs
  · rcases strtok (ascii "=") text with ⟨_ | digestToken, rest⟩
    · exact ⟨fun digest => ⟨[], [], [], digest⟩, fun _ _ _ => Or.inl rfl⟩
    · exact ⟨digestCredentials text digestToken rest, fun _ _ _ => Or.inr rfl⟩
  · exact ⟨fun digest => ⟨[], [], [], digest⟩, fun _ _ _ => Or.inl rfl⟩

theorem scheme_behind (hone : OneLine value)
    (h : getCharInString (ascii " ") value HTTP_REQUEST_AUTH_DIM = none) (more : Str) :
    getCharInString (ascii " ") (value ++ crlf ++ more) HTTP_REQUEST_AUTH_DIM =
      (getCharInString (ascii " ") more (14 - value.length)).map (· + (value.length + 2)) := by
  have hcrlf : ∀ k, getCharInString (ascii " ") crlf k = none := by
    intro k
    match k with
    | 0 => rfl
    | 1 => rfl
    | k + 2 => rfl
  have hend : getCharInString (ascii " ") (value ++ crlf) HTTP_REQUEST_AUTH_DIM = none := by
    rw [getCharInString_behind hone.line.2 h, hcrlf]
    rfl
  have hzero : (0 : Byte) ∉ value ++ crlf := by
    rw [List.mem_append, not_or]
    exact ⟨hone.line.2, by decide⟩
  have hdim : HTTP_REQUEST_AUTH_DIM = 16 := rfl
  have hlength : (value ++ crlf).length = value.length + 2 := List.length_append
  have hleft : HTTP_REQUEST_AUTH_DIM - (value.length + 2) = 14 - value.length := by omega
  rw [getCharInString_behind hzero hend, hlength, hleft]

/-- The scheme is the whole line when the space is the next line's first character. -/
theorem readAuth_whole (htrimmed : value.head? ≠ some (ch ' ')) {more : Str}
    (h : getCharInString (ascii " ") (value ++ crlf ++ more) HTTP_REQUEST_AUTH_DIM = some (value.length + 2))
    (digest : Digest) (lenOut : Nat) :
    readReqAuthLine (value ++ crlf ++ more) digest lenOut = .ok ⟨value ++ crlf, [], [], digest⟩ lenOut := by
  have hlength : (value ++ crlf).length = value.length + 2 := List.length_append
  have htake : (value ++ crlf ++ more).take (value.length + 2) = value ++ crlf := by
    rw [← hlength, List.take_left]
  have hne : ∀ scheme : Str, ch '\r' ∉ scheme → ¬ value ++ crlf = scheme := by
    rintro scheme hno rfl
    exact hno (List.mem_append_right _ List.mem_cons_self)
  unfold readReqAuthLine
  rw [line_eq htrimmed]
  dsimp only
  rw [h]
  dsimp only
  rw [htake, if_neg (hne _ (by decide)), if_neg (hne _ (by decide))]

/-- A line without a space in which none can be found behind it, but for a space that the next line starts
with. -/
theorem auth_long (hone : OneLine value) (htrimmed : value.head? ≠ some (ch ' '))
    (h : getCharInString (ascii " ") value HTTP_REQUEST_AUTH_DIM = none) (hlong : 13 ≤ value.length)
    (more : Str) (digest : Digest) (lenOut : Nat) :
    readReqAuthLine (value ++ crlf ++ more) digest lenOut = .error 400 ∨
      value.length = 13 ∧ readReqAuthLine (value ++ crlf ++ more) digest lenOut =
        .ok ⟨value ++ crlf, [], [], digest⟩ lenOut := by
  have hscheme := scheme_behind hone h more
  have hnone : getCharInString (ascii " ") (value ++ crlf ++ more) HTTP_REQUEST_AUTH_DIM = none →
      readReqAuthLine (value ++ crlf ++ more) digest lenOut = .error 400 := by
    intro hno
    unfold readReqAuthLine
    rw [line_eq htrimmed]
    dsimp only
    rw [hno]
  by_cases heq : value.length = 13
  · have hone' : 14 - value.length = 0 + 1 := by omega
    rw [hone'] at hscheme
    cases more with
    | nil => exact Or.inl (hnone hscheme)
    | cons c more =>
      rw [getCharInString] at hscheme
      split_ifs at hscheme with hzero hspace
      · exact Or.inl (hnone hscheme)
      · rw [Option.map_some, Nat.zero_add] at hscheme
        exact Or.inr ⟨heq, readAuth_whole htrimmed hscheme digest lenOut⟩
      · refine Or.inl (hnone (hscheme.trans ?_))
        cases more <;> rfl
  · have hzero : 14 - value.length = 0 := by omega
    rw [hzero] at hscheme
    refine Or.inl (hnone (hscheme.trans ?_))
    cases more <;> rfl

theorem auth_short (hone : OneLine value) (htrimmed : value.head? ≠ some (ch ' '))
    (h : getCharInString (ascii " ") value HTTP_REQUEST_AUTH_DIM = none) (hshort : value.length < 13)
    (more : Str) (digest : Digest) (lenOut : Nat) :
    readReqAuthLine (value ++ crlf ++ ch ' ' :: more) digest lenOut = .ok ⟨value ++ crlf, [], [], digest⟩ lenOut := by
  have hscheme := scheme_behind hone h (ch ' ' :: more)
  have hleft : 14 - value.length = 13 - value.length + 1 := by omega
  rw [hleft, getCharInString, if_neg (by decide), if_pos (by decide), Option.map_some, Nat.zero_add] at hscheme
  exact readAuth_whole htrimmed hscheme digest lenOut

end

end MyServer.RequestHeader
