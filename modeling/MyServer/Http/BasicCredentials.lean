import MyServer.Http.Base64Decode

/-!
# Basic credentials

What comes of a login and a password that were written in Base64, and of anything else in their place.
-/

open MyServer.HeaderLines MyServer.Base64

namespace MyServer.RequestHeader

structure BasicLine where
  base64 : Str
  base64_one : OneLine base64

def BasicLine.value (line : BasicLine) : Str := ascii "Basic " ++ line.base64

/-- There is room for 64 characters each. -/
def Credentials.Fits (c : Credentials) : Prop := c.login.length ≤ 64 ∧ c.password.length ≤ 64

/-- The line is refused or leads to the next one, with what fits in the buffers. Where it was written for a
login and a password and is not longer than is looked at, these are what is stored. -/
def BasicLine.Handled (line : BasicLine) : Prop :=
  (∀ more digest lenOut, readReqAuthLine (line.value ++ crlf ++ more) digest lenOut = .error 400 ∨
    ∃ credentials : Credentials, credentials.Fits ∧
      readReqAuthLine (line.value ++ crlf ++ more) digest lenOut = .ok credentials line.value.length) ∧
  ∀ login password, ch ':' ∉ login → line.base64 = standard (login ++ ch ':' :: password) →
    line.base64.length < 64 → ∀ more digest lenOut,
      readReqAuthLine (line.value ++ crlf ++ more) digest lenOut =
        .ok ⟨ascii "Basic", login, password, digest⟩ line.value.length

/-- There is a colon among the bytes that the length is told of. -/
def ColonTold (base64 : Str) : Prop :=
  base64.length ≠ 1 ∧
    ∃ vs, sextets false base64 = some vs ∧ ch ':' ∈ (octets vs).take (toldLength vs.length)

theorem toldLength_le (vs : List (BitVec 32)) : toldLength vs.length ≤ (octets vs).length := by
  rw [length_octets]
  unfold toldLength
  split_ifs <;> omega

/-- One byte too few, or too many. -/
theorem toldLength_standard (n : Nat) :
    toldLength ((n * 4 + 2) / 3) = if n % 3 = 2 then n - 1 else n + n % 3 := by
  unfold toldLength
  have hcases : n % 3 = 0 ∨ n % 3 = 1 ∨ n % 3 = 2 := by omega
  obtain hmod | hmod | hmod := hcases
  · have hall : (n * 4 + 2) / 3 = n / 3 * 4 := by omega
    rw [hall, if_pos (by omega), if_neg (by omega)]
    omega
  · have hall : (n * 4 + 2) / 3 = n / 3 * 4 + 2 := by omega
    rw [hall, if_neg (by omega), if_neg (by omega)]
    omega
  · have hall : (n * 4 + 2) / 3 = n / 3 * 4 + 3 := by omega
    rw [hall, if_neg (by omega), if_pos (by omega)]
    omega

theorem idxOf_lt_iff (vs : List (BitVec 32)) :
    (octets vs).idxOf (ch ':') < toldLength vs.length ↔ ch ':' ∈ (octets vs).take (toldLength vs.length) := by
  by_cases hmem : ch ':' ∈ octets vs
  · exact (List.mem_take_iff_idxOf_lt hmem).symm
  · refine iff_of_false ?_ fun h => hmem (List.mem_of_mem_take h)
    rw [List.idxOf_eq_length hmem]
    exact not_lt.mpr (toldLength_le vs)

section

variable (line : BasicLine) (more : Str) (digest : Digest) (lenOut : Nat)

/-- What a line gives. -/
theorem basicLine_read :
    readReqAuthLine (line.value ++ crlf ++ more) digest lenOut =
      if line.base64.length < 64 then
        match sextets false line.base64 with
        | none => .undefined
        | some vs =>
          if line.base64.length = 1 ∨ toldLength vs.length ≤ (octets vs).idxOf (ch ':') then .undefined
          else .ok (basicCredentials (octets vs) (toldLength vs.length) digest) line.value.length
      else .error 400 := by
  have hone : OneLine line.value := by
    intro b hb
    rcases List.mem_append.mp hb with hb | hb
    · have hall : ∀ b ∈ ascii "Basic ", b ≠ ch '\r' ∧ b ≠ LF ∧ b ≠ 0 := by decide
      exact hall b hb
    · exact line.base64_one b hb
  have htrimmed : line.value.head? ≠ some (ch ' ') := by
    change some (ch 'B') ≠ some (ch ' ')
    decide
  have hdrop : line.value.drop 6 = line.base64 := rfl
  have hdecode := decode_eq (rfl : crlf = ch '\r' :: [LF]) nofun (by decide) line.base64
  have hscheme : getCharInString (ascii " ") line.value HTTP_REQUEST_AUTH_DIM = some 5 := rfl
  rw [auth_basic_eq hone htrimmed hscheme rfl, hdrop, hdecode]
  by_cases hshort : line.base64.length < 64
  · rw [if_pos hshort, if_pos hshort]
    cases sextets false line.base64 with
    | none => rfl
    | some vs =>
      dsimp only [Option.bind_some]
      by_cases hsingle : line.base64.length = 1
      · -- The three bytes of a group do not fit in the buffer; and when there are none, no colon is found.
        rw [if_pos (Or.inl hsingle)]
        by_cases hnil : vs = []
        · subst hnil
          simp [octets, toldLength]
        · rw [if_pos ⟨hsingle, hnil⟩]
      · rw [if_neg fun h => hsingle h.1]
        simp only [hsingle, false_or]
  · rw [if_neg hshort, if_neg hshort]

/-- The credentials of a login and a password, and the length that is told of them. -/
theorem sextets_credentials (login password : Str) :
    ∃ vs, sextets false (standard (login ++ ch ':' :: password)) = some vs ∧
      octets vs = login ++ ch ':' :: (password ++
        List.replicate ((3 - (login ++ ch ':' :: password).length % 3) % 3) 0) ∧
      toldLength vs.length = if (login ++ ch ':' :: password).length % 3 = 2 then login.length + password.length
        else login.length + password.length + 1 + (login ++ ch ':' :: password).length % 3 := by
  obtain ⟨vs, hvs, hlength, hoctets⟩ := sextets_standard (login ++ ch ':' :: password)
  refine ⟨vs, hvs, by simpa using hoctets, ?_⟩
  rw [hlength, toldLength_standard, List.length_append, List.length_cons]
  split_ifs <;> omega

theorem cstr_append_zeros (s : Str) (n : Nat) : cstr (s ++ List.replicate n 0) = cstr s := by
  by_cases hzero : (0 : Byte) ∈ s
  · exact cstr_append_of_mem hzero _
  · have hnone : cstr (List.replicate n 0) = [] := by
      cases n <;> rfl
    rw [cstr_append hzero, hnone, List.append_nil, cstr_of_notMem hzero]

/-- **What is stored** for a login and a password: all of them, or all but the last character. -/
theorem credentials_read {login password : Str} (hcolon : ch ':' ∉ login)
    (hbase64 : line.base64 = standard (login ++ ch ':' :: password)) (hshort : line.base64.length < 64) :
    readReqAuthLine (line.value ++ crlf ++ more) digest lenOut =
      if (login ++ ch ':' :: password).length % 3 = 2 ∧ password = [] then .undefined
      else .ok ⟨ascii "Basic", cstr login,
        cstr (if (login ++ ch ':' :: password).length % 3 = 2 then password.dropLast else password), digest⟩
        line.value.length := by
  obtain ⟨vs, hvs, hoctets, htold⟩ := sextets_credentials login password
  have hsingle : line.base64.length ≠ 1 := by
    rw [hbase64, standard, length_encode]
    omega
  have hplace : (octets vs).idxOf (ch ':') = login.length := by
    rw [hoctets, List.idxOf_append_of_notMem hcolon, List.idxOf_cons_self]
    rfl
  rw [basicLine_read, if_pos hshort, hbase64, hvs]
  dsimp only
  rw [hbase64] at hsingle
  simp only [hsingle, false_or, hplace]
  have htake : (octets vs).take login.length = login := by rw [hoctets, List.take_left]
  have hdrop : (octets vs).drop (login.length + 1) =
      password ++ List.replicate ((3 - (login ++ ch ':' :: password).length % 3) % 3) 0 := by
    rw [hoctets, List.drop_length_add_append]
    rfl
  unfold basicCredentials
  rw [hplace, htake, hdrop, htold]
  by_cases htwo : (login ++ ch ':' :: password).length % 3 = 2
  · have hlast : login.length + password.length - login.length - 1 = password.length - 1 := by omega
    rw [if_pos htwo, if_pos htwo, htwo, hlast, List.take_append_of_le_length (Nat.sub_le _ _),
      ← List.dropLast_eq_take]
    by_cases hempty : password = []
    · rw [if_pos (by simp [hempty]), if_pos ⟨rfl, hempty⟩]
    · have hpos := List.length_pos_iff.mpr hempty
      rw [if_neg (by omega), if_neg fun h => hempty h.2]
  · rw [if_neg htwo, if_neg htwo, if_neg (by omega), if_neg fun h => htwo h.1]
    have hall : login.length + password.length + 1 + (login ++ ch ':' :: password).length % 3 - login.length - 1 =
        password.length + (login ++ ch ':' :: password).length % 3 := by omega
    rw [hall, List.take_length_add_append, List.take_replicate, cstr_append_zeros]

end

/-! ## Which lines are handled -/

theorem cstr_eq_self_iff (s : Str) : cstr s = s ↔ (0 : Byte) ∉ s :=
  ⟨fun h hmem => zero_notMem_cstr s (h.symm ▸ hmem), cstr_of_notMem⟩

section

variable {line : BasicLine}

theorem fits_of_short {vs : List (BitVec 32)} (hshort : line.base64.length < 64)
    (hvs : sextets false line.base64 = some vs) (n : Nat) (digest : Digest) :
    (basicCredentials (octets vs) n digest).Fits := by
  have hle := (length_sextets line.base64).1 vs hvs
  have hcstr : ∀ s : Str, (cstr s).length ≤ s.length := fun s => (List.takeWhile_prefix _).length_le
  have hlength := length_octets vs
  constructor
  · refine (hcstr _).trans ?_
    rw [List.length_take]
    omega
  · refine (hcstr _).trans ?_
    rw [List.length_take, List.length_drop]
    omega

/-- A line that is not refused is undefined, unless there is a colon that is told of. -/
theorem colonTold_of_defined (hshort : line.base64.length < 64) {more : Str} {digest : Digest} {lenOut : Nat}
    (h : readReqAuthLine (line.value ++ crlf ++ more) digest lenOut ≠ .undefined) : ColonTold line.base64 := by
  rw [basicLine_read, if_pos hshort] at h
  cases hvs : sextets false line.base64 with
  | none =>
    rw [hvs] at h
    exact absurd rfl h
  | some vs =>
    rw [hvs] at h
    dsimp only at h
    have hdefined : ¬ (line.base64.length = 1 ∨ toldLength vs.length ≤ (octets vs).idxOf (ch ':')) :=
      fun hundefined => h (if_pos hundefined)
    rw [not_or, not_le, idxOf_lt_iff] at hdefined
    exact ⟨hdefined.1, vs, hvs, hdefined.2⟩

theorem read_of_colonTold (hshort : line.base64.length < 64) (h : ColonTold line.base64) (more : Str)
    (digest : Digest) (lenOut : Nat) :
    ∃ credentials : Credentials, credentials.Fits ∧
      readReqAuthLine (line.value ++ crlf ++ more) digest lenOut = .ok credentials line.value.length := by
  obtain ⟨hsingle, vs, hvs, hcolon⟩ := h
  rw [← idxOf_lt_iff] at hcolon
  refine ⟨_, fits_of_short hshort hvs (toldLength vs.length) digest, ?_⟩
  rw [basicLine_read, if_pos hshort, hvs]
  dsimp only
  rw [if_neg (by rw [not_or, not_le]; exact ⟨hsingle, hcolon⟩)]

/-- What is written for a login and a password comes out as it was. -/
def Exact (base64 : Str) : Prop := ∀ text, base64 = standard text → (0 : Byte) ∉ text ∧ text.length % 3 ≠ 2

theorem mem_of_colonTold {text : Str} (h : ColonTold (standard text)) : ch ':' ∈ text := by
  obtain ⟨-, vs, hvs, hcolon⟩ := h
  obtain ⟨vs', hvs', -, hoctets⟩ := sextets_standard text
  obtain rfl : vs = vs' := Option.some.inj (hvs.symm.trans hvs')
  have hmem := List.mem_of_mem_take hcolon
  rw [hoctets] at hmem
  exact (List.mem_append.mp hmem).resolve_right fun hzero => absurd (List.eq_of_mem_replicate hzero) (by decide)

theorem exact_of_handled (hshort : line.base64.length < 64) (h : line.Handled) :
    ColonTold line.base64 ∧ Exact line.base64 := by
  obtain ⟨hdefined, hstored⟩ := h
  have hcolon : ColonTold line.base64 := by
    refine @colonTold_of_defined line hshort [] .free 0 fun hundefined => ?_
    rcases hdefined [] .free 0 with herror | ⟨credentials, -, hok⟩
    · exact absurd (hundefined.symm.trans herror) nofun
    · exact absurd (hundefined.symm.trans hok) nofun
  refine ⟨hcolon, fun text hbase64 => ?_⟩
  obtain ⟨login, password, rfl, hlogin⟩ := List.eq_append_cons_of_mem (mem_of_colonTold (hbase64 ▸ hcolon))
  have hread := credentials_read line [] .free 0 hlogin hbase64 hshort
  rw [hstored login password hlogin hbase64 hshort [] .free 0] at hread
  split_ifs at hread with hundefined htwo
  · -- The last character of the password is not stored.
    have hpassword := congrArg Credentials.password (AuthLine.ok.inj hread).1
    have hle : (cstr password.dropLast).length ≤ password.dropLast.length := (List.takeWhile_prefix _).length_le
    have hlength := congrArg List.length hpassword
    dsimp only at hlength
    rw [List.length_dropLast] at hle
    have hempty : password = [] := List.eq_nil_of_length_eq_zero (by omega)
    exact absurd ⟨htwo, hempty⟩ hundefined
  · have hlogin' := congrArg Credentials.login (AuthLine.ok.inj hread).1
    have hpassword := congrArg Credentials.password (AuthLine.ok.inj hread).1
    refine ⟨?_, htwo⟩
    rw [List.mem_append, not_or, List.mem_cons, not_or]
    exact ⟨(cstr_eq_self_iff login).mp hlogin'.symm, by decide, (cstr_eq_self_iff password).mp hpassword.symm⟩

/-- **Which lines are handled**: those that are refused for their length, and those that have a colon where it
is looked for and are not of a text that loses its last character. -/
theorem handled_iff (line : BasicLine) :
    line.Handled ↔ 64 ≤ line.base64.length ∨ ColonTold line.base64 ∧ Exact line.base64 := by
  constructor
  · intro h
    rcases Nat.lt_or_ge line.base64.length 64 with hshort | hlong
    · exact Or.inr (exact_of_handled hshort h)
    · exact Or.inl hlong
  · rintro (hlong | ⟨hcolon, hexact⟩)
    · refine ⟨fun more digest lenOut => Or.inl ?_, fun _ _ _ _ hshort => absurd hshort (not_lt.mpr hlong)⟩
      rw [basicLine_read, if_neg (not_lt.mpr hlong)]
    · refine ⟨fun more digest lenOut => ?_, fun login password hlogin hbase64 hshort more digest lenOut => ?_⟩
      · rcases Nat.lt_or_ge line.base64.length 64 with hshort | hlong
        · exact Or.inr (read_of_colonTold hshort hcolon more digest lenOut)
        · exact Or.inl (by rw [basicLine_read, if_neg (not_lt.mpr hlong)])
      · obtain ⟨hzero, htwo⟩ := hexact _ hbase64
        rw [List.mem_append, not_or, List.mem_cons, not_or] at hzero
        rw [credentials_read line more digest lenOut hlogin hbase64 hshort, if_neg fun h => htwo h.1, if_neg htwo,
          cstr_of_notMem hzero.1, cstr_of_notMem hzero.2.2]

/-- The credentials of the login `a` and the password `bcd`. -/
def lossyLine : BasicLine where
  base64 := standard (ascii "a:bcd")
  base64_one := by
    unfold standard digit base64chars
    repeat rw [ascii_ofList]
    decide

theorem not_handled : ¬ ∀ line : BasicLine, line.Handled := by
  intro h
  obtain ⟨-, hexact⟩ := exact_of_handled (by decide) (h lossyLine)
  exact (hexact (ascii "a:bcd") rfl).2 rfl

end

end MyServer.RequestHeader
