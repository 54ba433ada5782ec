import MyServer.Ftp.ControlLines

/-!
# Telnet codes on a control connection

`Ftp::escapeTelnet`, with what it answers and where it reads.
-/

namespace MyServer.Telnet

def WILL : Byte := 251
def WONT : Byte := 252
def DO : Byte := 253
def DONT : Byte := 254
def IAC : Byte := 255

/-- A `MemBuf`, with the memory that it has for its bytes. -/
structure Buffer where
  bytes : Str
  realLength : Nat
  fits : bytes.length ≤ realLength

/-- A reply is kept with how many bytes of the input are behind it. -/
structure Unescaped where
  out : Str
  replies : List (Nat × Str)

def Unescaped.push (b : Byte) (r : Unescaped) : Unescaped := { r with out := b :: r.out }
def Unescaped.reply (left : Nat) (text : Str) (r : Unescaped) : Unescaped :=
  { r with replies := (left, text) :: r.replies }

/-! ## The code -/

/-- The second byte of `szReply`. -/
def szReply (c : Byte) : Option Byte :=
  if c = DO ∨ c = DONT then some WONT
  else if c = WILL ∨ c = WONT then some DONT
  else none

/-- A reply is a C string, but no NUL is put behind its three bytes: `behind` is what is in the memory there. -/
def customText (behind : Str) (a x : Byte) : Str := cstr ([IAC, a, x] ++ behind)

/-- From the cursor on; `none` when it reads behind the `total` bytes. The cursor is compared as a `u_int`. -/
def loop (behind : Str) (total : Nat) : Str → Option Unescaped
  | [] => if total < 2 ^ 32 then some ⟨[0], []⟩ else none
  | b :: text =>
    if b = IAC then
      match text with
      | [] => none
      | c :: text =>
        if c = 0 then some ⟨[0], []⟩
        else
          match szReply c with
          | some a =>
            match text with
            | [] => none
            | x :: text => (loop behind total text).map (.reply text.length (customText behind a x))
          | none =>
            if c = IAC then
              (loop behind total text).map fun r => (r.reply text.length (customText behind 0 c)).push c
            else loop behind total text
    else (loop behind total text).map (.push b)

def escapeTelnet (behind : Str) (In : Buffer) : Option Unescaped :=
  if In.realLength = 0 then some ⟨[], []⟩ else loop behind In.bytes.length In.bytes

/-! ## What it is to do -/

def isOption (c : Byte) : Prop := c = DO ∨ c = DONT ∨ c = WILL ∨ c = WONT

instance (c : Byte) : Decidable (isOption c) := inferInstanceAs (Decidable (_ ∨ _))

/-- What is cut off by the end stays as it is. -/
def decode : Str → Str
  | [] => []
  | b :: text =>
    if b = IAC then
      match text with
      | [] => [b]
      | c :: text =>
        if isOption c then
          match text with
          | [] => [b, c]
          | _ :: text => decode text
        else if c = IAC then c :: decode text
        else decode text
    else b :: decode text

/-- `DO` by `WONT`, `WILL` by `DONT`. -/
def answer (c x : Byte) : Option Str :=
  if c = DO then some [IAC, WONT, x] else if c = WILL then some [IAC, DONT, x] else none

def prescribed : Str → List (Nat × Str)
  | [] => []
  | b :: text =>
    if b = IAC then
      match text with
      | [] => []
      | c :: text =>
        if isOption c then
          match text with
          | [] => []
          | x :: text =>
            match answer c x with
            | some reply => (text.length, reply) :: prescribed text
            | none => prescribed text
        else prescribed text
    else prescribed text

def Unescapes (behind : Str) (In : Buffer) : Prop :=
  ∃ r, escapeTelnet behind In = some r ∧ r.out = decode In.bytes ++ [0] ∧ r.replies = prescribed In.bytes

/-! ## When it does -/

/-- Nothing in it but what is ignored. -/
def Ignored : Str → Prop
  | [] => True
  | b :: text =>
    b = IAC ∧
      match text with
      | [] => False
      | c :: text =>
        if isOption c then
          match text with
          | [] => False
          | _ :: text => (c = DONT ∨ c = WONT) ∧ Ignored text
        else c ≠ IAC ∧ Ignored text

/-- The codes are pairs and, when the reply ends with its third byte, `DO` and `WILL`, up to the end or to a pair
with a NUL, behind which nothing may count. -/
def Handled (behind : Str) (total : Nat) : Str → Prop
  | [] => total < 2 ^ 32
  | b :: text =>
    if b = IAC then
      match text with
      | [] => False
      | c :: text =>
        if c = 0 then Ignored text
        else if isOption c then
          match text with
          | [] => False
          | x :: text => (c = DO ∨ c = WILL) ∧ x ≠ 0 ∧ cstr behind = [] ∧ Handled behind total text
        else c ≠ IAC ∧ Handled behind total text
    else Handled behind total text

/-! ## The codes at the front -/

theorem telnet_induction {p : Str → Prop} (nil : p []) (byte : ∀ b text, b ≠ IAC → p text → p (b :: text))
    (iac : p [IAC]) (cut : ∀ c, isOption c → p [IAC, c])
    (triple : ∀ c x text, isOption c → p text → p (IAC :: c :: x :: text))
    (pair : ∀ c text, ¬ isOption c → p text → p (IAC :: c :: text)) (text : Str) : p text := by
  induction h : text.length using Nat.strong_induction_on generalizing text with
  | _ n ih =>
    match text, h with
    | [], _ => exact nil
    | b :: text, h =>
      have hrest : ∀ rest : Str, rest.length ≤ text.length → p rest := by
        intro rest hle
        refine ih rest.length ?_ rest rfl
        rw [← h, List.length_cons]
        omega
      by_cases hb : b = IAC
      · subst hb
        match text with
        | [] => exact iac
        | c :: text =>
          by_cases hc : isOption c
          · match text with
            | [] => exact cut c hc
            | x :: text =>
              refine triple c x text hc (hrest text ?_)
              simp only [List.length_cons]
              omega
          · exact pair c text hc (hrest text (Nat.le_succ _))
      · exact byte b text hb (hrest text le_rfl)

section

variable {b c x : Byte} {text : Str}

theorem decode_byte (hb : b ≠ IAC) : decode (b :: text) = b :: decode text := by
  rw [decode.eq_def]
  simp [hb]

theorem decode_iac : decode (IAC :: c :: text) =
    if isOption c then
      match text with
      | [] => [IAC, c]
      | _ :: text => decode text
    else if c = IAC then c :: decode text
    else decode text := by
  rw [decode.eq_def]
  exact if_pos rfl

theorem decode_triple (hc : isOption c) : decode (IAC :: c :: x :: text) = decode text := by
  rw [decode_iac, if_pos hc]

theorem decode_pair (hc : ¬ isOption c) :
    decode (IAC :: c :: text) = if c = IAC then c :: decode text else decode text := by
  rw [decode_iac, if_neg hc]

theorem decode_cut (hc : isOption c) : decode [IAC, c] = [IAC, c] := by
  rw [decode_iac, if_pos hc]

theorem prescribed_byte (hb : b ≠ IAC) : prescribed (b :: text) = prescribed text := by
  rw [prescribed.eq_def]
  simp [hb]

theorem prescribed_iac : prescribed (IAC :: c :: text) =
    if isOption c then
      match text with
      | [] => []
      | x :: text =>
        match answer c x with
        | some reply => (text.length, reply) :: prescribed text
        | none => prescribed text
    else prescribed text := by
  rw [prescribed.eq_def]
  exact if_pos rfl

theorem prescribed_triple (hc : isOption c) : prescribed (IAC :: c :: x :: text) =
    match answer c x with
    | some reply => (text.length, reply) :: prescribed text
    | none => prescribed text := by
  rw [prescribed_iac, if_pos hc]

theorem prescribed_pair (hc : ¬ isOption c) : prescribed (IAC :: c :: text) = prescribed text := by
  rw [prescribed_iac, if_neg hc]

theorem prescribed_cut (hc : isOption c) : prescribed [IAC, c] = [] := by
  rw [prescribed_iac, if_pos hc]

/-- The reply to a code is told apart by where it stands. -/
theorem prescribed_lt (text : Str) : ∀ reply ∈ prescribed text, reply.1 < text.length := by
  induction text using telnet_induction with
  | nil => simp [prescribed]
  | byte b text hb ih =>
    rw [prescribed_byte hb]
    exact fun reply hreply => (ih reply hreply).trans (Nat.lt_succ_self _)
  | iac => simp [prescribed]
  | cut c hc => simp [prescribed_cut hc]
  | triple c x text hc ih =>
    have hrest : ∀ reply ∈ prescribed text, reply.1 < (IAC :: c :: x :: text).length := by
      intro reply hreply
      have := ih reply hreply
      simp only [List.length_cons]
      omega
    rw [prescribed_triple hc]
    cases answer c x with
    | none => exact hrest
    | some text' =>
      rw [List.forall_mem_cons]
      refine ⟨?_, hrest⟩
      simp only [List.length_cons]
      omega
  | pair c text hc ih =>
    rw [prescribed_pair hc]
    intro reply hreply
    have := ih reply hreply
    simp only [List.length_cons]
    omega

theorem prescribed_ne_cons {reply : Str} {replies : List (Nat × Str)} :
    (text.length, reply) :: replies ≠ prescribed text := by
  intro h
  exact lt_irrefl _ (prescribed_lt text _ (h ▸ List.mem_cons_self))

theorem option_ne_zero (hc : isOption c) : c ≠ 0 := by
  rcases hc with rfl | rfl | rfl | rfl <;> decide

/-- `DO` and `WILL` are answered, as the code does. -/
theorem answer_of_asks (h : c = DO ∨ c = WILL) : ∃ a, szReply c = some a ∧ answer c x = some [IAC, a, x] := by
  rcases h with rfl | rfl
  · exact ⟨WONT, by decide, by simp [answer]⟩
  · exact ⟨DONT, by decide, by simp [answer, WILL, DO]⟩

/-- `DONT` and `WONT` are not to be answered, and are. -/
theorem answer_of_not_asks (hc : isOption c) (h : ¬ (c = DO ∨ c = WILL)) :
    (c = DONT ∨ c = WONT) ∧ answer c x = none := by
  rw [not_or] at h
  obtain rfl | rfl : c = DONT ∨ c = WONT := by
    rcases hc with hc | hc | hc | hc
    · exact absurd hc h.1
    · exact .inl hc
    · exact absurd hc h.2
    · exact .inr hc
  · exact ⟨.inl rfl, by simp [answer, h]⟩
  · exact ⟨.inr rfl, by simp [answer, h]⟩

theorem szReply_of_option (hc : isOption c) : ∃ a, szReply c = some a := by
  rcases hc with rfl | rfl | rfl | rfl
  · exact ⟨WONT, by decide⟩
  · exact ⟨WONT, by decide⟩
  · exact ⟨DONT, by decide⟩
  · exact ⟨DONT, by decide⟩

theorem szReply_of_pair (hc : ¬ isOption c) : szReply c = none := by
  simp only [isOption, not_or] at hc
  simp [szReply, hc]

theorem ignored_iac : Ignored (IAC :: c :: text) ↔
    if isOption c then
      match text with
      | [] => False
      | _ :: text => (c = DONT ∨ c = WONT) ∧ Ignored text
    else c ≠ IAC ∧ Ignored text := by
  rw [Ignored.eq_def]
  exact and_iff_right rfl

theorem ignored_triple (hc : isOption c) :
    Ignored (IAC :: c :: x :: text) ↔ (c = DONT ∨ c = WONT) ∧ Ignored text := by
  rw [ignored_iac, if_pos hc]

theorem ignored_pair (hc : ¬ isOption c) : Ignored (IAC :: c :: text) ↔ c ≠ IAC ∧ Ignored text := by
  rw [ignored_iac, if_neg hc]

theorem ignored_iff (text : Str) : Ignored text ↔ decode text = [] ∧ prescribed text = [] := by
  induction text using telnet_induction with
  | nil => simp [Ignored, decode, prescribed]
  | byte b text hb ih =>
    rw [Ignored.eq_def]
    simp [hb, decode_byte hb]
  | iac => simp [Ignored, decode]
  | cut c hc =>
    rw [ignored_iac, if_pos hc, decode_cut hc]
    simp
  | triple c x text hc ih =>
    rw [decode_triple hc, prescribed_triple hc, ignored_triple hc]
    by_cases hasks : c = DO ∨ c = WILL
    · obtain ⟨a, -, hanswer⟩ := answer_of_asks (x := x) hasks
      have hnot : ¬ (c = DONT ∨ c = WONT) := by rcases hasks with rfl | rfl <;> decide
      simp [hanswer, hnot]
    · obtain ⟨hnot, hanswer⟩ := answer_of_not_asks (x := x) hc hasks
      simp [hanswer, hnot, ih]
  | pair c text hc ih =>
    rw [decode_pair hc, prescribed_pair hc, ignored_pair hc]
    by_cases hiac : c = IAC <;> simp [hiac, ih]

end

/-! ## The loop -/

section

variable {behind : Str} {total : Nat} {a b c x : Byte} {text : Str}

theorem loop_byte (hb : b ≠ IAC) : loop behind total (b :: text) = (loop behind total text).map (.push b) := by
  rw [loop.eq_def]
  simp [hb]

theorem loop_code : loop behind total (IAC :: c :: text) =
    if c = 0 then some ⟨[0], []⟩
    else
      match szReply c with
      | some a =>
        match text with
        | [] => none
        | x :: text => (loop behind total text).map (.reply text.length (customText behind a x))
      | none =>
        if c = IAC then
          (loop behind total text).map fun r => (r.reply text.length (customText behind 0 c)).push c
        else loop behind total text := by
  rw [loop.eq_def]
  exact if_pos rfl

theorem loop_nul : loop behind total (IAC :: 0 :: text) = some ⟨[0], []⟩ := by
  rw [loop_code, if_pos rfl]

theorem loop_cut (hc : isOption c) : loop behind total [IAC, c] = none := by
  obtain ⟨a, ha⟩ := szReply_of_option hc
  rw [loop_code, if_neg (option_ne_zero hc), ha]

theorem loop_triple (hzero : c ≠ 0) (ha : szReply c = some a) : loop behind total (IAC :: c :: x :: text) =
    (loop behind total text).map (.reply text.length (customText behind a x)) := by
  rw [loop_code, if_neg hzero, ha]

theorem loop_iac : loop behind total (IAC :: IAC :: text) =
    (loop behind total text).map fun r => (r.reply text.length (customText behind 0 IAC)).push IAC := by
  have hreply : szReply IAC = none := by decide
  have hzero : IAC ≠ 0 := by decide
  rw [loop_code, if_neg hzero, hreply]
  exact if_pos rfl

theorem loop_pair (hzero : c ≠ 0) (hc : ¬ isOption c) (hiac : c ≠ IAC) :
    loop behind total (IAC :: c :: text) = loop behind total text := by
  rw [loop_code, if_neg hzero, szReply_of_pair hc]
  exact if_neg hiac

theorem handled_byte (hb : b ≠ IAC) : Handled behind total (b :: text) ↔ Handled behind total text := by
  rw [Handled.eq_def]
  simp [hb]

theorem handled_code : Handled behind total (IAC :: c :: text) ↔
    if c = 0 then Ignored text
    else if isOption c then
      match text with
      | [] => False
      | x :: text => (c = DO ∨ c = WILL) ∧ x ≠ 0 ∧ cstr behind = [] ∧ Handled behind total text
    else c ≠ IAC ∧ Handled behind total text := by
  rw [Handled.eq_def]
  exact iff_of_eq (if_pos rfl)

theorem handled_nul : Handled behind total (IAC :: 0 :: text) ↔ Ignored text := by
  rw [handled_code, if_pos rfl]

theorem handled_cut (hc : isOption c) : ¬ Handled behind total [IAC, c] := by
  rw [handled_code, if_neg (option_ne_zero hc), if_pos hc]
  exact not_false

theorem handled_triple (hc : isOption c) : Handled behind total (IAC :: c :: x :: text) ↔
    (c = DO ∨ c = WILL) ∧ x ≠ 0 ∧ cstr behind = [] ∧ Handled behind total text := by
  rw [handled_code, if_neg (option_ne_zero hc), if_pos hc]

theorem handled_pair (hzero : c ≠ 0) (hc : ¬ isOption c) :
    Handled behind total (IAC :: c :: text) ↔ c ≠ IAC ∧ Handled behind total text := by
  rw [handled_code, if_neg hzero, if_neg hc]

theorem customText_eq_iff (ha : a ≠ 0) : customText behind a x = [IAC, a, x] ↔ x ≠ 0 ∧ cstr behind = [] := by
  have hiac : IAC ≠ 0 := by decide
  by_cases hx : x = 0
  · simp [customText, cstr, hiac, ha, hx]
  · simp [customText, cstr, hiac, ha, hx]

/-- The loop gets to the end, with what is left of the text and the replies to its codes. -/
def Decodes (behind : Str) (total : Nat) (text : Str) : Prop :=
  ∃ r, loop behind total text = some r ∧ r.out = decode text ++ [0] ∧ r.replies = prescribed text

theorem decodes_nil : Decodes behind total [] ↔ total < 2 ^ 32 := by
  rw [Decodes, loop]
  split_ifs with h
  · exact iff_of_true ⟨_, rfl, rfl, rfl⟩ h
  · refine iff_of_false ?_ h
    rintro ⟨r, hr, -⟩
    exact absurd hr (by simp)

theorem decodes_byte (hb : b ≠ IAC) : Decodes behind total (b :: text) ↔ Decodes behind total text := by
  rw [Decodes, loop_byte hb, decode_byte hb, prescribed_byte hb]
  simp [Unescaped.push, Decodes]

/-- Behind a NUL nothing is read. -/
theorem decodes_nul : Decodes behind total (IAC :: 0 :: text) ↔ Ignored text := by
  have hzero : ¬ isOption 0 := by decide
  rw [Decodes, loop_nul, decode_pair hzero, if_neg (by decide), prescribed_pair hzero, ignored_iff]
  constructor
  · rintro ⟨r, hr, hout, hreplies⟩
    rw [← Option.some.inj hr] at hout hreplies
    have hdecode : [] = decode text := List.append_cancel_right hout
    exact ⟨hdecode.symm, hreplies.symm⟩
  · rintro ⟨hdecode, hprescribed⟩
    exact ⟨_, rfl, by rw [hdecode]; rfl, hprescribed.symm⟩

/-- A reply where none is prescribed. -/
theorem not_decodes_of_reply {front reply : Str} {f : Unescaped → Unescaped}
    (hloop : loop behind total front = (loop behind total text).map f)
    (hf : ∀ r, (f r).replies = (text.length, reply) :: r.replies) (hfront : prescribed front = prescribed text) :
    ¬ Decodes behind total front := by
  rintro ⟨r, hr, -, hreplies⟩
  rw [hloop] at hr
  obtain ⟨r, -, rfl⟩ := Option.map_eq_some_iff.mp hr
  rw [hf, hfront] at hreplies
  exact prescribed_ne_cons hreplies

/-- `DO` and `WILL` are answered, with what is in the memory behind the reply. -/
theorem decodes_asks (hasks : c = DO ∨ c = WILL) : Decodes behind total (IAC :: c :: x :: text) ↔
    (x ≠ 0 ∧ cstr behind = []) ∧ Decodes behind total text := by
  have hc : isOption c := hasks.imp_right fun h => .inr (.inl h)
  obtain ⟨a, ha, hanswer⟩ := answer_of_asks (x := x) hasks
  have hne : a ≠ 0 := by
    rcases hasks with rfl | rfl <;> · rw [← Option.some.inj ha]; decide
  rw [Decodes, loop_triple (option_ne_zero hc) ha, decode_triple hc, prescribed_triple hc, hanswer,
    ← customText_eq_iff hne]
  constructor
  · rintro ⟨_, hmap, hout, hreplies⟩
    obtain ⟨r, hr, rfl⟩ := Option.map_eq_some_iff.mp hmap
    obtain ⟨hreply, hreplies⟩ := List.cons.inj hreplies
    exact ⟨(Prod.mk.inj hreply).2, r, hr, hout, hreplies⟩
  · rintro ⟨hreply, r, hr, hout, hreplies⟩
    refine ⟨_, Option.map_eq_some_iff.mpr ⟨r, hr, rfl⟩, hout, ?_⟩
    rw [Unescaped.reply, hreply, hreplies]

theorem loop_iff (behind : Str) (total : Nat) (text : Str) :
    Decodes behind total text ↔ Handled behind total text := by
  induction text using telnet_induction with
  | nil => rw [decodes_nil, Handled]
  | byte b text hb ih => rw [decodes_byte hb, handled_byte hb, ih]
  | iac => simp [Decodes, loop, Handled]
  | cut c hc => simp [Decodes, loop_cut hc, handled_cut hc]
  | triple c x text hc ih =>
    rw [handled_triple hc]
    by_cases hasks : c = DO ∨ c = WILL
    · rw [decodes_asks hasks, ih, and_iff_right hasks, and_assoc]
    · obtain ⟨a, ha⟩ := szReply_of_option hc
      obtain ⟨-, hanswer⟩ := answer_of_not_asks (x := x) hc hasks
      have hnone : prescribed (IAC :: c :: x :: text) = prescribed text := by
        rw [prescribed_triple hc, hanswer]
      refine iff_of_false ?_ fun h => hasks h.1
      exact not_decodes_of_reply (loop_triple (option_ne_zero hc) ha) (fun _ => rfl) hnone
  | pair c text hc ih =>
    by_cases hzero : c = 0
    · subst hzero
      rw [decodes_nul, handled_nul]
    · rw [handled_pair hzero hc]
      by_cases hiac : c = IAC
      · subst hiac
        refine iff_of_false ?_ fun h => h.1 rfl
        exact not_decodes_of_reply loop_iac (fun _ => rfl) (prescribed_pair hc)
      · rw [and_iff_right hiac, ← ih, Decodes, Decodes, loop_pair hzero hc hiac, decode_pair hc, if_neg hiac,
          prescribed_pair hc]

end

/-- **When `escapeTelnet` does what its comment says**, for a buffer with room for bytes. -/
theorem escapeTelnet_unescapes_iff (behind : Str) (In : Buffer) :
    Unescapes behind In ↔ In.realLength ≠ 0 ∧ Handled behind In.bytes.length In.bytes := by
  rw [← loop_iff, Unescapes, escapeTelnet, Decodes]
  split_ifs with hreal
  · refine iff_of_false ?_ fun h => h.1 hreal
    rintro ⟨r, hr, hout, -⟩
    rw [← Option.some.inj hr] at hout
    simp at hout
  · rw [and_iff_right hreal]

/-- `IAC DONT` is answered. -/
theorem not_escapeTelnet_unescapes : ¬ ∀ (behind : Str) (In : Buffer), Unescapes behind In := by
  intro h
  obtain ⟨r, hr, -, hreplies⟩ := h [] ⟨[IAC, DONT, 1], 3, le_rfl⟩
  rw [← Option.some.inj hr] at hreplies
  exact absurd hreplies (by decide)

/-! ## The bytes alone -/

theorem isOption_iff (c : Byte) : isOption c ↔ 251 ≤ c ∧ c ≤ 254 := by
  constructor
  · rintro (rfl | rfl | rfl | rfl) <;> decide
  · rintro ⟨hle, hge⟩
    simp only [isOption, DO, DONT, WILL, WONT, UInt8.le_iff_toNat_le, ← UInt8.toNat_inj, UInt8.reduceToNat] at *
    omega

section

variable {b c x : Byte} {text : Str}

theorem control_byte (hb : b ≠ IAC) :
    FtpControl.escapeTelnet (b :: text) = b :: FtpControl.escapeTelnet text := by
  rw [FtpControl.escapeTelnet.eq_def]
  simp [show b ≠ 255 from hb]

theorem control_triple (hc : isOption c) :
    FtpControl.escapeTelnet (IAC :: c :: x :: text) = FtpControl.escapeTelnet text := by
  rw [FtpControl.escapeTelnet.eq_def]
  simp [IAC, option_ne_zero hc, (isOption_iff c).mp hc]

theorem control_pair (hc : ¬ isOption c) : FtpControl.escapeTelnet (IAC :: c :: text) =
    if c = 0 then [] else if c = IAC then c :: FtpControl.escapeTelnet text else FtpControl.escapeTelnet text := by
  rw [isOption_iff] at hc
  rw [FtpControl.escapeTelnet.eq_def]
  by_cases hzero : c = 0
  · simp [IAC, hzero]
  · by_cases hiac : c = 255 <;> simp [IAC, hzero, hiac, hc]

end

/-- The parser gets the bytes that were told of it, and a NUL. -/
theorem loop_out {behind : Str} {total : Nat} {text : Str} {r : Unescaped} (h : loop behind total text = some r) :
    r.out = FtpControl.escapeTelnet text ++ [0] := by
  induction text using telnet_induction generalizing r with
  | nil =>
    rw [loop] at h
    split_ifs at h
    rw [← Option.some.inj h]
    rfl
  | byte b text hb ih =>
    rw [loop_byte hb] at h
    obtain ⟨r, hr, rfl⟩ := Option.map_eq_some_iff.mp h
    rw [control_byte hb, Unescaped.push, ih hr, List.cons_append]
  | iac => exact absurd h (by simp [loop])
  | cut c hc => exact absurd h (by simp [loop_cut hc])
  | triple c x text hc ih =>
    obtain ⟨a, ha⟩ := szReply_of_option hc
    rw [loop_triple (option_ne_zero hc) ha] at h
    obtain ⟨r, hr, rfl⟩ := Option.map_eq_some_iff.mp h
    rw [control_triple hc, ← ih hr]
    rfl
  | pair c text hc ih =>
    rw [control_pair hc]
    by_cases hzero : c = 0
    · subst hzero
      rw [loop_nul] at h
      rw [← Option.some.inj h]
      rfl
    · by_cases hiac : c = IAC
      · subst hiac
        rw [loop_iac] at h
        obtain ⟨r, hr, rfl⟩ := Option.map_eq_some_iff.mp h
        rw [if_neg hzero, if_pos rfl, List.cons_append, ← ih hr]
        rfl
      · rw [loop_pair hzero hc hiac] at h
        rw [if_neg hzero, if_neg hiac, ih h]

end MyServer.Telnet
