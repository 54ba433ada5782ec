import MyServer.Http.ChunkSize
import MyServer.Http.RequestParse
import MyServer.Lib.Run

/-!
# Digest authentication on a connection

`Http::checkDigest`, and what `getFilePermissions` and `requestAuthorization` do with the same data
(http.cpp). `md5` gives the digest as a text of hexadecimal digits.
-/

open MyServer.Run

namespace MyServer.RequestHeader

structure HttpUserData where
  realm : Str
  opaqueText : Str
  nonce : Str
  nc : BitVec 64
  digest : Bool
  digestChecked : Bool
  deriving DecidableEq

/-- `HttpUserData::reset`. -/
def HttpUserData.reset : HttpUserData := ⟨[], [], [], 0, false, false⟩

/-- What the evaluation of the security rules left in `td->securityToken`. -/
structure NeededToken where
  neededPassword : Str
  algorithm : Str

inductive Checked
  /-- More is copied to `A1[48]` than it has room for. -/
  | undefined
  | exception (hud : HttpUserData)
  | answer (ok : Bool) (hud : HttpUserData)

def digestCount (request : HttpRequestHeader) : BitVec 64 := BitVec.ofInt 64 (hexToInt request.digest.digestNc)

section

variable (md5 : Str → Str)

/-- A part of the text that is hashed, and a colon when it is not empty. -/
def part (s : Str) : Str := s ++ if s = [] then [] else ascii ":"

/-- The answer that a client gives who knows `A1`. -/
def digestResponse (hud : HttpUserData) (request : HttpRequestHeader) (A1 : Str) : Str :=
  let uri := if request.digest.digestUri = [] then request.uriOpts else request.digest.digestUri
  let A2 := md5 (request.cmd ++ ascii ":" ++ uri)
  md5 (A1 ++ ascii ":" ++ hud.nonce ++ ascii ":" ++ part request.digest.digestNc ++
    part request.digest.digestCnonce ++ part request.digest.digestQop ++ A2)

def checkDigest (hud : HttpUserData) (request : HttpRequestHeader) (st : NeededToken) : Checked :=
  let digest := request.digest
  if digest.digestOpaque ≠ [] ∧ digest.digestOpaque ≠ hud.opaqueText then .answer false hud
  else if digest.digestRealm ≠ hud.realm then .answer false hud
  else if digestCount request ≠ 0 ∧ digestCount request ≠ hud.nc + 1 then .answer false hud
  else
    let hud := { hud with nc := hud.nc + 1 }
    let answer := fun A1 => Checked.answer (digestResponse md5 hud request A1 = digest.digestResponse) hud
    if st.algorithm = [] then
      answer (md5 (digest.digestUsername ++ ascii ":" ++ digest.digestRealm ++ ascii ":" ++ st.neededPassword))
    else if st.algorithm = ascii "a1" then
      if 48 ≤ st.neededPassword.length then .undefined else answer st.neededPassword
    else .exception hud

/-- The end of `getFilePermissions`, where the resource needs Digest authentication; the Boolean is whether
the permissions are those that the password gives. -/
def readDigestPermissions (request : HttpRequestHeader) (hud : HttpUserData) (st : NeededToken) :
    Option (Bool × HttpUserData) :=
  if request.auth = ascii "Digest" then
    if hud.digestChecked then some (hud.digest, hud)
    else
      match checkDigest md5 hud request st with
      | .undefined => none
      -- The request is answered with an error.
      | .exception hud => some (false, hud)
      | .answer ok hud => some (ok, { hud with digest := ok, digestChecked := true })
  else some (false, hud)

/-- What `requestAuthorization` takes from the request and from the clock. -/
structure Challenge where
  host : Str
  opaqueText : Str
  nonce : Str

def HttpUserData.challenge (hud : HttpUserData) (c : Challenge) : HttpUserData :=
  let hud := { hud with realm := c.host.take 47, opaqueText := c.opaqueText }
  if hud.digest = false ∨ hud.nonce = [] then { hud with nonce := c.nonce, nc := 0 } else hud

/-- One request: the resources that are asked for, and whether it is answered with a challenge. -/
structure Turn where
  request : HttpRequestHeader
  tokens : List NeededToken
  challenge : Option Challenge

/-- Whether one of the resources was given for the password. -/
def readTokens (request : HttpRequestHeader) : List NeededToken → HttpUserData → Option (Bool × HttpUserData)
  | [], hud => some (false, hud)
  | st :: tokens, hud =>
    (readDigestPermissions md5 request hud st).bind fun (accepted, hud) =>
      (readTokens request tokens hud).map fun (later, hud) => (accepted || later, hud)

def turn (hud : HttpUserData) (t : Turn) : Option (Bool × HttpUserData) :=
  (readTokens md5 t.request t.tokens { hud with digestChecked := false }).map fun (accepted, hud) =>
    (accepted, (t.challenge.map hud.challenge).getD hud)

end

/-! ## Replays -/

/-- The number that an `nc` is written for. -/
def ncNumber (nc : Str) : Option Nat :=
  if cstr nc ≠ [] ∧ (cstr nc).all isHexDigit then some (hexValue (cstr nc)) else none

abbrev DigestEntry := Entry HttpUserData Turn Bool

/-- What is accepted has the number that is expected next. -/
def NextOnly (e : DigestEntry) : Prop :=
  e.outcome = true → ncNumber e.input.request.digest.digestNc = some (e.before.nc.toNat + 1)

/-- Both are accepted, with one nonce and one number. -/
def Replayed (e e' : DigestEntry) : Prop :=
  e.outcome = true ∧ e'.outcome = true ∧
    e.input.request.digest.digestNonce = e'.input.request.digest.digestNonce ∧
    ncNumber e.input.request.digest.digestNc = ncNumber e'.input.request.digest.digestNc

def ReplaySafe (log : List DigestEntry) : Prop :=
  (∀ e ∈ log, NextOnly e) ∧ log.Pairwise fun e e' => ¬ Replayed e e'

/-- The `nc` is a number of 32 bits and not 0, and the nonce is the one that was given last. -/
def Regular (e : DigestEntry) : Prop :=
  e.input.request.auth = ascii "Digest" →
    (∃ n ∈ ncNumber e.input.request.digest.digestNc, 0 < n ∧ n < 2 ^ 32) ∧
      e.input.request.digest.digestNonce = e.before.nonce

instance (e : DigestEntry) : Decidable (Regular e) := inferInstanceAs (Decidable (_ → _ ∧ _))
instance (e : DigestEntry) : Decidable (NextOnly e) := inferInstanceAs (Decidable (_ → _))
instance (e e' : DigestEntry) : Decidable (Replayed e e') := inferInstanceAs (Decidable (_ ∧ _ ∧ _ ∧ _))

/-- The nonces of the challenges. -/
def nonces (turns : List Turn) : List Str := turns.filterMap fun t => t.challenge.map Challenge.nonce

/-- No nonce is computed twice. -/
def Fresh (turns : List Turn) : Prop := (nonces turns).Nodup ∧ [] ∉ nonces turns

instance (turns : List Turn) : Decidable (Fresh turns) := inferInstanceAs (Decidable (_ ∧ _))

/-! ## The counter -/

section

variable {n : Nat}

theorem count_of_number {request : HttpRequestHeader} (h : ncNumber request.digest.digestNc = some n)
    (hlt : n < 2 ^ 32) : digestCount request = BitVec.ofInt 64 (BitVec.ofNat 32 n).toInt := by
  unfold ncNumber at h
  split_ifs at h with hhex
  obtain rfl : hexValue (cstr request.digest.digestNc) = n := Option.some.inj h
  have hloop := hexLoop_of_hex hhex.2 (by decide : 0 < 2 ^ 32)
  change hexLoop 0 (cstr request.digest.digestNc) = if hexValue (cstr request.digest.digestNc) < 2 ^ 32 then
    hexValue (cstr request.digest.digestNc) else 0 at hloop
  unfold digestCount hexToInt
  rw [hloop, if_pos hlt]

theorem toULong_of_le (hle : 2 ^ 31 ≤ n) (hlt : n < 2 ^ 32) :
    (BitVec.ofInt 64 (BitVec.ofNat 32 n).toInt).toNat = 2 ^ 64 - 2 ^ 32 + n := by
  have hint : (BitVec.ofNat 32 n).toInt = (n : Int) - 2 ^ 32 := by
    rw [BitVec.toInt_eq_toNat_cond, BitVec.toNat_ofNat, Nat.mod_eq_of_lt hlt, if_neg (by omega)]
    norm_num
  rw [hint, BitVec.toNat_ofInt]
  omega

theorem count_ne_zero (hpos : 0 < n) (hlt : n < 2 ^ 32) : BitVec.ofInt 64 (BitVec.ofNat 32 n).toInt ≠ 0 := by
  intro hzero
  have hnat := congrArg BitVec.toNat hzero
  rcases Nat.lt_or_ge n (2 ^ 31) with hsmall | hlarge
  · rw [toULong_of_lt hsmall] at hnat
    exact absurd hnat (by simpa using hpos.ne')
  · rw [toULong_of_le hlarge hlt] at hnat
    simp at hnat

/-- The number that is expected next. -/
theorem number_of_count {nc : BitVec 64} (hnc : nc.toNat < 2 ^ 31) (hlt : n < 2 ^ 32)
    (h : BitVec.ofInt 64 (BitVec.ofNat 32 n).toInt = nc + 1) : n = nc.toNat + 1 ∧ n < 2 ^ 31 := by
  have hnat := congrArg BitVec.toNat h
  have hnext : (nc + 1).toNat = nc.toNat + 1 := by
    rw [BitVec.toNat_add]
    simp
    omega
  rw [hnext] at hnat
  rcases Nat.lt_or_ge n (2 ^ 31) with hsmall | hlarge
  · rw [toULong_of_lt hsmall] at hnat
    exact ⟨hnat, hsmall⟩
  · rw [toULong_of_le hlarge hlt] at hnat
    omega

end

/-! ## One request -/

section

variable {md5 : Str → Str} {request : HttpRequestHeader} {start hud hud' : HttpUserData} {count : BitVec 64}

/-- The counter has gone on, from what `count` is expected at. -/
def Counted (count : BitVec 64) (a b : HttpUserData) : Prop := count = a.nc + 1 ∧ b.nc = a.nc + 1

/-- What a request whose count is not 0 does to the data. -/
structure Moves (count : BitVec 64) (a b : HttpUserData) : Prop where
  nonce : b.nonce = a.nonce
  nc : b.nc = a.nc ∨ Counted count a b

theorem Moves.refl (count : BitVec 64) (a : HttpUserData) : Moves count a a := ⟨rfl, Or.inl rfl⟩

theorem Counted.moves {a b c : HttpUserData} (h : Counted count a b) (hmoves : Moves count b c) :
    Counted count a c := by
  obtain ⟨hcount, hb⟩ := h
  refine ⟨hcount, ?_⟩
  rcases hmoves.nc with hsame | ⟨hagain, -⟩
  · exact hsame.trans hb
  · rw [hcount, hb] at hagain
    exact absurd hagain (by simp)

/-- No request is counted twice. -/
theorem Moves.trans {a b c : HttpUserData} (h : Moves count a b) (h' : Moves count b c) : Moves count a c := by
  refine ⟨h'.nonce.trans h.nonce, ?_⟩
  rcases h.nc with hsame | hcounted
  · rcases h'.nc with hsame' | ⟨hcount, hc⟩
    · exact Or.inl (hsame'.trans hsame)
    · rw [hsame] at hcount hc
      exact Or.inr ⟨hcount, hc⟩
  · exact Or.inr (hcounted.moves h')

theorem checkDigest_moves (hcount : digestCount request = count) (hne : count ≠ 0) (st : NeededToken) :
    match checkDigest md5 hud request st with
    | .undefined => True
    | .exception hud' => Moves count hud hud' ∧ hud'.digestChecked = hud.digestChecked
    | .answer ok hud' => Moves count hud hud' ∧ (ok = true → Counted count hud hud') := by
  have hrefused : Moves count hud hud ∧ (false = true → Counted count hud hud) := ⟨Moves.refl count hud, nofun⟩
  unfold checkDigest
  rw [hcount]
  by_cases hopaque : request.digest.digestOpaque ≠ [] ∧ request.digest.digestOpaque ≠ hud.opaqueText
  · simp only [if_pos hopaque]
    exact hrefused
  · by_cases hrealm : request.digest.digestRealm ≠ hud.realm
    · simp only [if_neg hopaque, if_pos hrealm]
      exact hrefused
    · by_cases hskips : count ≠ 0 ∧ count ≠ hud.nc + 1
      · simp only [if_neg hopaque, if_neg hrealm, if_pos hskips]
        exact hrefused
      · have hnext : count = hud.nc + 1 := by
          by_contra hno
          exact hskips ⟨hne, hno⟩
        simp only [if_neg hopaque, if_neg hrealm, if_neg hskips]
        split_ifs
        · exact ⟨⟨rfl, Or.inr ⟨hnext, rfl⟩⟩, fun _ => ⟨hnext, rfl⟩⟩
        · trivial
        · exact ⟨⟨rfl, Or.inr ⟨hnext, rfl⟩⟩, fun _ => ⟨hnext, rfl⟩⟩
        · exact ⟨⟨rfl, Or.inr ⟨hnext, rfl⟩⟩, rfl⟩

/-- What is held to be right was counted since `start`. -/
def Held (count : BitVec 64) (start hud : HttpUserData) : Prop :=
  hud.digestChecked = true → hud.digest = true → Counted count start hud

theorem readDigestPermissions_moves (hcount : digestCount request = count) (hne : count ≠ 0) {st : NeededToken}
    {accepted : Bool} (hmoves : Moves count start hud) (hheld : Held count start hud)
    (hread : readDigestPermissions md5 request hud st = some (accepted, hud')) :
    Moves count hud hud' ∧ Held count start hud' ∧ (accepted = true → Counted count start hud') := by
  have hspec := @checkDigest_moves md5 request hud count hcount hne st
  unfold readDigestPermissions at hread
  split_ifs at hread with hauth hchecked
  · obtain ⟨rfl, rfl⟩ := Prod.mk.inj (Option.some.inj hread)
    exact ⟨Moves.refl count hud, hheld, hheld hchecked⟩
  · -- A count that was not expected at the start is not expected later either.
    have hsince : ∀ b, Moves count hud b → Counted count hud b → Counted count start b := by
      intro b hb hcounted
      rcases (hmoves.trans hb).nc with hsame | hall
      · rcases hmoves.nc with hstart | hall
        · rw [Counted, hstart] at hcounted
          exact hcounted
        · exact hall.moves hb
      · exact hall
    split at hread
    · exact absurd hread nofun
    · rename_i hud₁ hresult
      rw [hresult] at hspec
      obtain ⟨rfl, rfl⟩ := Prod.mk.inj (Option.some.inj hread)
      refine ⟨hspec.1, fun hchecked' => absurd (hchecked'.symm.trans hspec.2) (Ne.symm hchecked), nofun⟩
    · rename_i ok hud₁ hresult
      rw [hresult] at hspec
      obtain ⟨rfl, rfl⟩ := Prod.mk.inj (Option.some.inj hread)
      have hgiven : ok = true → Counted count start hud₁ := fun hok => hsince hud₁ hspec.1 (hspec.2 hok)
      exact ⟨⟨hspec.1.nonce, hspec.1.nc⟩, fun _ => hgiven, hgiven⟩
  · obtain ⟨rfl, rfl⟩ := Prod.mk.inj (Option.some.inj hread)
    exact ⟨Moves.refl count hud, hheld, nofun⟩

/-- **Every resource of a request.** What is accepted was checked with the count that is expected next. -/
theorem readTokens_moves (hcount : digestCount request = count) (hne : count ≠ 0) {tokens : List NeededToken}
    {accepted : Bool} (hmoves : Moves count start hud) (hheld : Held count start hud)
    (hread : readTokens md5 request tokens hud = some (accepted, hud')) :
    Moves count hud hud' ∧ (accepted = true → Counted count start hud') := by
  induction tokens generalizing hud accepted with
  | nil =>
    obtain ⟨rfl, rfl⟩ := Prod.mk.inj (Option.some.inj hread)
    exact ⟨Moves.refl count hud, nofun⟩
  | cons st tokens ih =>
    obtain ⟨⟨first, hud₁⟩, hfirst, hrest⟩ := Option.bind_eq_some_iff.mp hread
    obtain ⟨⟨later, hud₂⟩, hlater, hboth⟩ := Option.map_eq_some_iff.mp hrest
    obtain ⟨rfl, rfl⟩ := Prod.mk.inj hboth
    obtain ⟨hmoves₁, hheld₁, hgiven⟩ := readDigestPermissions_moves hcount hne hmoves hheld hfirst
    obtain ⟨hmoves₂, hgiven₂⟩ := ih (hmoves.trans hmoves₁) hheld₁ hlater
    refine ⟨hmoves₁.trans hmoves₂, fun haccepted => ?_⟩
    rcases Bool.or_eq_true_iff.mp haccepted with hone | htwo
    · exact (hgiven hone).moves hmoves₂
    · exact hgiven₂ htwo

theorem readTokens_other (hauth : request.auth ≠ ascii "Digest") (tokens : List NeededToken) :
    readTokens md5 request tokens hud = some (false, hud) := by
  induction tokens with
  | nil => rfl
  | cons st tokens ih =>
    have hother : readDigestPermissions md5 request hud st = some (false, hud) := if_neg hauth
    rw [readTokens, hother, Option.bind_some]
    dsimp only
    rw [ih]
    rfl

end

/-- **What one request does**: the counter goes on, or a new nonce comes and it starts again. -/
structure TurnSpec (s : HttpUserData) (t : Turn) (accepted : Bool) (s' : HttpUserData) : Prop where
  bound : s'.nc.toNat < 2 ^ 31
  number : accepted = true → ncNumber t.request.digest.digestNc = some (s.nc.toNat + 1) ∧
    t.request.digest.digestNonce = s.nonce
  next : (s'.nonce = s.nonce ∧ s.nc.toNat ≤ s'.nc.toNat ∧ (accepted = true → s.nc.toNat < s'.nc.toNat)) ∨
    ∃ c, t.challenge = some c ∧ s'.nonce = c.nonce

theorem challenge_cases (hud : HttpUserData) (challenge : Option Challenge) :
    ((challenge.map hud.challenge).getD hud).nonce = hud.nonce ∧
        ((challenge.map hud.challenge).getD hud).nc = hud.nc ∨
      ∃ c, challenge = some c ∧ ((challenge.map hud.challenge).getD hud).nonce = c.nonce ∧
        ((challenge.map hud.challenge).getD hud).nc = 0 := by
  cases challenge with
  | none => exact Or.inl ⟨rfl, rfl⟩
  | some c =>
    simp only [Option.map_some, Option.getD_some, HttpUserData.challenge]
    split_ifs
    · exact Or.inr ⟨c, rfl, rfl, rfl⟩
    · exact Or.inl ⟨rfl, rfl⟩

/-- What the challenge leaves of it. -/
theorem TurnSpec.of_tokens {s hud : HttpUserData} {t : Turn} {accepted : Bool} (hbound : hud.nc.toNat < 2 ^ 31)
    (hnumber : accepted = true → ncNumber t.request.digest.digestNc = some (s.nc.toNat + 1) ∧
      t.request.digest.digestNonce = s.nonce) (hnonce : hud.nonce = s.nonce) (hle : s.nc.toNat ≤ hud.nc.toNat)
    (hlt : accepted = true → s.nc.toNat < hud.nc.toNat) :
    TurnSpec s t accepted ((t.challenge.map hud.challenge).getD hud) := by
  rcases challenge_cases hud t.challenge with ⟨hsame, hnc⟩ | ⟨c, hc, hnew, hzero⟩
  · exact ⟨by rwa [hnc], hnumber, Or.inl ⟨hsame.trans hnonce, by rwa [hnc], by rwa [hnc]⟩⟩
  · exact ⟨by rw [hzero]; decide, hnumber, Or.inr ⟨c, hc, hnew⟩⟩

theorem turn_spec {md5 : Str → Str} {s s' : HttpUserData} {t : Turn} {accepted : Bool}
    (hbound : s.nc.toNat < 2 ^ 31) (hregular : Regular ⟨s, t, accepted⟩)
    (hturn : turn md5 s t = some (accepted, s')) : TurnSpec s t accepted s' := by
  obtain ⟨⟨accepted', hud⟩, hread, hpair⟩ := Option.map_eq_some_iff.mp hturn
  obtain ⟨rfl, rfl⟩ := Prod.mk.inj hpair
  by_cases hauth : t.request.auth = ascii "Digest"
  · obtain ⟨⟨n, hn, hpos, hlt⟩, hnonce⟩ := hregular hauth
    have hcount := count_of_number hn hlt
    obtain ⟨hmoves, hgiven⟩ := readTokens_moves hcount (count_ne_zero hpos hlt)
      (Moves.refl _ { s with digestChecked := false }) (fun hchecked => absurd hchecked nofun) hread
    -- Where the counter goes on, it goes on to the number.
    have hexpected : Counted (BitVec.ofInt 64 (BitVec.ofNat 32 n).toInt) { s with digestChecked := false } hud →
        n = s.nc.toNat + 1 ∧ n < 2 ^ 31 ∧ hud.nc.toNat = n := by
      rintro ⟨hnext, hnc⟩
      obtain ⟨hnumber, hsmall⟩ := number_of_count hbound hlt hnext
      refine ⟨hnumber, hsmall, ?_⟩
      rw [hnc, ← hnext, toULong_of_lt hsmall]
    refine TurnSpec.of_tokens ?_ (fun haccepted => ?_) hmoves.nonce ?_ fun haccepted => ?_
    · rcases hmoves.nc with hsame | hcounted
      · rw [hsame]
        exact hbound
      · have hall := hexpected hcounted
        omega
    · rw [hn, (hexpected (hgiven haccepted)).1]
      exact ⟨rfl, hnonce⟩
    · rcases hmoves.nc with hsame | hcounted
      · rw [hsame]
      · have hall := hexpected hcounted
        omega
    · have hall := hexpected (hgiven haccepted)
      omega
  · rw [readTokens_other hauth] at hread
    obtain ⟨rfl, rfl⟩ := Prod.mk.inj (Option.some.inj hread)
    exact TurnSpec.of_tokens hbound nofun rfl le_rfl nofun

/-! ## All of them -/

/-- What is accepted in a run that starts at `s`. -/
def AcceptedFrom (s : HttpUserData) (turns : List Turn) (e : DigestEntry) : Prop :=
  e.outcome = true →
    (e.input.request.digest.digestNonce = s.nonce ∨ e.input.request.digest.digestNonce ∈ nonces turns) ∧
    (e.input.request.digest.digestNonce = s.nonce →
      ∃ n, ncNumber e.input.request.digest.digestNc = some n ∧ s.nc.toNat < n)

/-- Where the nonces of a run come from, when its first request is taken. -/
structure Later (s s' : HttpUserData) (t : Turn) (turns : List Turn) (accepted : Bool) : Prop where
  among : ∀ {nonce}, nonce = s'.nonce ∨ nonce ∈ nonces turns → nonce = s.nonce ∨ nonce ∈ nonces (t :: turns)
  same : ∀ {nonce}, nonce = s'.nonce ∨ nonce ∈ nonces turns → nonce = s.nonce →
    s'.nonce = s.nonce ∧ s.nc.toNat ≤ s'.nc.toNat ∧ (accepted = true → s.nc.toNat < s'.nc.toNat)

theorem nonces_cons (t : Turn) (turns : List Turn) :
    nonces (t :: turns) = (t.challenge.map Challenge.nonce).toList ++ nonces turns := by
  unfold nonces
  cases hc : t.challenge <;> simp [hc]

theorem later_nonces {s s' : HttpUserData} {t : Turn} {turns : List Turn} {accepted : Bool}
    (hnext : (s'.nonce = s.nonce ∧ s.nc.toNat ≤ s'.nc.toNat ∧ (accepted = true → s.nc.toNat < s'.nc.toNat)) ∨
      ∃ c, t.challenge = some c ∧ s'.nonce = c.nonce)
    (hnodup : (nonces (t :: turns)).Nodup) (hnew : s.nonce ∉ nonces (t :: turns)) :
    (nonces turns).Nodup ∧ s'.nonce ∉ nonces turns ∧ Later s s' t turns accepted := by
  have hsub : ∀ nonce ∈ nonces turns, nonce ∈ nonces (t :: turns) := by
    intro nonce h
    rw [nonces_cons]
    exact List.mem_append_right _ h
  rcases hnext with hsame | ⟨c, hc, hnonce⟩
  · rw [nonces_cons] at hnodup
    refine ⟨hnodup.of_append_right, fun h => hnew (hsub _ (hsame.1 ▸ h)), ⟨fun h => ?_, fun _ _ => hsame⟩⟩
    exact h.imp (fun h => h.trans hsame.1) (hsub _)
  · have hcons : nonces (t :: turns) = c.nonce :: nonces turns := by
      rw [nonces_cons, hc]
      rfl
    rw [hcons] at hnodup hnew
    have hamong : ∀ {nonce}, nonce = s'.nonce ∨ nonce ∈ nonces turns → nonce ∈ c.nonce :: nonces turns := by
      rintro nonce (rfl | h)
      · rw [hnonce]
        exact List.mem_cons_self
      · exact List.mem_cons_of_mem _ h
    refine ⟨hnodup.of_cons, by rw [hnonce]; exact (List.nodup_cons.mp hnodup).1, ⟨fun h => ?_, fun h heq => ?_⟩⟩
    · rw [hcons]
      exact Or.inr (hamong h)
    · exact absurd (heq ▸ hamong h) hnew

theorem run_replaySafe {md5 : Str → Str} {turns : List Turn} {s : HttpUserData} (hbound : s.nc.toNat < 2 ^ 31)
    (hregular : ∀ e ∈ run (turn md5) turns s, Regular e) (hnodup : (nonces turns).Nodup)
    (hnew : s.nonce ∉ nonces turns) :
    ReplaySafe (run (turn md5) turns s) ∧ ∀ e ∈ run (turn md5) turns s, AcceptedFrom s turns e := by
  induction turns generalizing s with
  | nil => exact ⟨⟨List.forall_mem_nil _, List.Pairwise.nil⟩, List.forall_mem_nil _⟩
  | cons t turns ih =>
    unfold run at hregular ⊢
    cases hturn : turn md5 s t with
    | none => exact ⟨⟨List.forall_mem_nil _, List.Pairwise.nil⟩, List.forall_mem_nil _⟩
    | some result =>
      obtain ⟨accepted, s'⟩ := result
      simp only [hturn] at hregular ⊢
      obtain ⟨hfirst, hrest⟩ := List.forall_mem_cons.mp hregular
      have hspec := turn_spec hbound hfirst hturn
      obtain ⟨hnodup', hnew', hlist⟩ := later_nonces hspec.next hnodup hnew
      obtain ⟨⟨hnumbers, hpairs⟩, haccepted⟩ := ih hspec.bound hrest hnodup' hnew'
      refine ⟨⟨List.forall_mem_cons.mpr ⟨fun ho => (hspec.number ho).1, hnumbers⟩,
        List.pairwise_cons.mpr ⟨fun e he => ?_, hpairs⟩⟩, List.forall_mem_cons.mpr ⟨fun ho => ?_, fun e he ho => ?_⟩⟩
      · rintro ⟨ho, ho', hnonce, hnumber⟩
        obtain ⟨hnext, hgiven⟩ := hspec.number ho
        obtain ⟨hwhere, hgreater⟩ := haccepted e he ho'
        have hnonce' : e.input.request.digest.digestNonce = s.nonce := hnonce.symm.trans hgiven
        obtain ⟨hsame, -, hlt⟩ := hlist.same hwhere hnonce'
        obtain ⟨n, hn, hlt'⟩ := hgreater (hnonce'.trans hsame.symm)
        have heq : some (s.nc.toNat + 1) = some n := hnext.symm.trans (hnumber.trans hn)
        have hlt := hlt ho
        have hsucc := Option.some.inj heq
        omega
      · obtain ⟨hnext, hgiven⟩ := hspec.number ho
        exact ⟨Or.inl hgiven, fun _ => ⟨_, hnext, Nat.lt_succ_self _⟩⟩
      · obtain ⟨hwhere, hgreater⟩ := haccepted e he ho
        refine ⟨hlist.among hwhere, fun hnonce => ?_⟩
        obtain ⟨hsame, hle, -⟩ := hlist.same hwhere hnonce
        obtain ⟨n, hn, hlt⟩ := hgreater (hnonce.trans hsame.symm)
        exact ⟨n, hn, hle.trans_lt hlt⟩

/-- **No replays.** In every run of requests with a number for an `nc` and the nonce that was given last, where
no nonce is computed twice, what is accepted has the next number, and none is accepted twice. -/
theorem replaySafe_of_regular {md5 : Str → Str} {turns : List Turn}
    (hregular : ∀ e ∈ run (turn md5) turns .reset, Regular e) (hfresh : Fresh turns) :
    ReplaySafe (run (turn md5) turns .reset) :=
  (run_replaySafe (by decide) hregular hfresh.1 hfresh.2).1

/-! ## A client's requests -/

/-- MD5 of the texts that come up below. -/
def md5Known (s : Str) : Str :=
  if s = ascii "user:localhost:pass" then ascii "1bfdc2f06b8793144b20e067b29ac26a"
  else if s = ascii "GET:/" then ascii "71998c64aea37ae77020c49c00f73fa8"
  else if s = ascii "1bfdc2f06b8793144b20e067b29ac26a:7905857f6cfd1f0477887f4f11ee324f:00000001:c:auth:71998c64aea37ae77020c49c00f73fa8" then
    ascii "305b53653e90cd8a0867842b4df34ec4"
  else if s = ascii "1bfdc2f06b8793144b20e067b29ac26a:7905857f6cfd1f0477887f4f11ee324f:c:auth:71998c64aea37ae77020c49c00f73fa8" then
    ascii "f2da3b3e447927043fe01efa01276193"
  else []

/-- The password of `user` is `pass`. -/
def knownToken : NeededToken := ⟨ascii "pass", []⟩

def knownChallenge : Challenge where
  host := ascii "localhost"
  opaqueText := ascii "55a54008ad1ba589aa210d2629c1df41"
  nonce := ascii "7905857f6cfd1f0477887f4f11ee324f"

/-- `GET /` with an `nc` and a response. -/
def digestRequest (nc response : Str) : HttpRequestHeader :=
  { HttpRequestHeader.free with
    cmd := ascii "GET"
    uri := ascii "/"
    auth := ascii "Digest"
    digest := ⟨ascii "localhost", knownChallenge.opaqueText, knownChallenge.nonce, ascii "c", ascii "/", [],
      ascii "user", response, ascii "auth", nc⟩ }

/-- The first request is answered with a challenge. -/
def firstTurn : Turn := ⟨{ HttpRequestHeader.free with cmd := ascii "GET", uri := ascii "/" }, [knownToken],
  some knownChallenge⟩

def numberedTurn : Turn := ⟨digestRequest (ascii "00000001") (ascii "305b53653e90cd8a0867842b4df34ec4"), [knownToken], none⟩

/-- There is no `nc` in it. -/
def unnumberedTurn : Turn := ⟨digestRequest [] (ascii "f2da3b3e447927043fe01efa01276193"), [knownToken], none⟩

theorem numbered_safe : ReplaySafe (run (turn md5Known) [firstTurn, numberedTurn, numberedTurn] .reset) := by
  apply replaySafe_of_regular
  · unfold md5Known firstTurn numberedTurn digestRequest knownChallenge knownToken
    repeat rw [ascii_ofList]
    decide +kernel
  · unfold firstTurn numberedTurn digestRequest knownChallenge knownToken
    repeat rw [ascii_ofList]
    decide +kernel

/-- A request without an `nc` is accepted as often as it is sent. -/
theorem replayed_twice : ¬ ∀ (md5 : Str → Str) (turns : List Turn),
    (∀ t ∈ turns, t.request.auth = ascii "Digest" → t.request.digest.digestQop ≠ []) →
      ReplaySafe (run (turn md5) turns .reset) := by
  intro h
  have hsafe := h md5Known [firstTurn, unnumberedTurn, unnumberedTurn] (by decide +kernel)
  revert hsafe
  unfold md5Known firstTurn unnumberedTurn digestRequest knownChallenge knownToken
  repeat rw [ascii_ofList]
  exact fun hsafe => absurd hsafe.2 (by decide +kernel)

end MyServer.RequestHeader
