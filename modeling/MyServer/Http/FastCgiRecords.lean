import MyServer.Http.FastCgi

/-!
# FastCGI records

A response is a sequence of records that `END_REQUEST` ends. What the client is
to get is the data of the `STDOUT` records behind the header.
-/

namespace MyServer.FastCgi

/-! ## The end of the header -/

theorem headerSizeFrom_pos_le {i : Nat} {bs : Str} (h : headerSizeFrom i bs ≠ 0) :
    i + 4 ≤ headerSizeFrom i bs ∧ headerSizeFrom i bs ≤ i + bs.length := by
  induction bs generalizing i with
  | nil => exact absurd rfl h
  | cons b bs ih =>
    unfold headerSizeFrom at h ⊢
    split at h
    · rename_i hend
      rw [if_pos hend]
      have hlength := congrArg List.length hend
      simp only [List.length_take, List.length_append, crlf, List.length_cons,
        List.length_nil] at hlength
      simp only [List.length_cons]
      omega
    · rename_i hend
      rw [if_neg hend]
      have := ih h
      simp only [List.length_cons]
      omega

/-- What comes later does not move the end of the header. -/
theorem headerSizeFrom_append {i : Nat} {bs : Str} (h : headerSizeFrom i bs ≠ 0) (more : Str) :
    headerSizeFrom i (bs ++ more) = headerSizeFrom i bs := by
  induction bs generalizing i with
  | nil => exact absurd rfl h
  | cons b bs ih =>
    unfold headerSizeFrom at h
    rw [List.cons_append, headerSizeFrom, headerSizeFrom]
    split at h
    · rename_i hend
      have hlength := congrArg List.length hend
      simp only [List.length_take, List.length_append, crlf, List.length_cons,
        List.length_nil] at hlength
      have happend : (b :: (bs ++ more)).take 4 = crlf ++ crlf := by
        rw [← List.cons_append, List.take_append_of_le_length (by simp; omega), hend]
      rw [if_pos happend, if_pos hend]
    · rename_i hend
      have hrest := headerSizeFrom_pos_le h
      have happend : ¬ (b :: (bs ++ more)).take 4 = crlf ++ crlf := by
        rw [← List.cons_append, List.take_append_of_le_length (by simp; omega)]
        exact hend
      rw [if_neg happend, if_neg hend, ih h]

theorem headerSize_le {bs : Str} (h : headerSize bs ≠ 0) :
    4 ≤ headerSize bs ∧ headerSize bs ≤ bs.length := by
  simpa [headerSize] using headerSizeFrom_pos_le h

theorem headerSize_append {bs : Str} (h : headerSize bs ≠ 0) (more : Str) :
    headerSize (bs ++ more) = headerSize bs := headerSizeFrom_append h more

/-! ## Records -/

inductive RecordType where
  | stdout
  | stderr
  | endRequest
  deriving DecidableEq

def RecordType.byte : RecordType → Byte
  | .stdout => FCGISTDOUT
  | .stderr => FCGISTDERR
  | .endRequest => FCGIEND_REQUEST

/-- Version, type, request id, content length, padding length and a reserved byte. -/
def headBytes (version : Byte) (type : RecordType) (idB1 idB0 : Byte) (contentLength paddingLength : Nat)
    (reserved : Byte) : Str :=
  [version, type.byte, idB1, idB0, UInt8.ofNat (contentLength / 256),
    UInt8.ofNat (contentLength % 256), UInt8.ofNat paddingLength, reserved]

structure Record {α : Type} (value : α → Byte) where
  type : RecordType
  head : List α
  content : List α
  padding : List α
  content_lt : content.length < 65536
  padding_lt : padding.length < 256
  head_eq : ∃ version idB1 idB0 reserved, head.map value =
    headBytes version type idB1 idB0 content.length padding.length reserved

section Records

variable {α : Type} {value : α → Byte}

namespace Record

variable (r : Record value)

def encode : List α := r.head ++ (r.content ++ r.padding)

theorem head_length : r.head.length = 8 := by
  obtain ⟨version, idB1, idB0, reserved, h⟩ := r.head_eq
  rw [← List.length_map value, h]
  rfl

theorem length_encode : r.encode.length = 8 + (r.content.length + r.padding.length) := by
  unfold encode
  rw [List.length_append, List.length_append, r.head_length]

/-- **The header reads back.** -/
theorem header_eq : ∃ header, FcgiHeader.ofBytes (r.head.map value) = header ∧
    header.type = r.type.byte ∧ header.dim = r.content.length ∧
      header.paddingLength.toNat = r.padding.length := by
  obtain ⟨version, idB1, idB0, reserved, h⟩ := r.head_eq
  have hlt := r.content_lt
  refine ⟨_, rfl, ?_, ?_, ?_⟩
  · rw [h]
    rfl
  · rw [h]
    change (UInt8.ofNat (r.content.length / 256)).toNat <<< 8 |||
      (UInt8.ofNat (r.content.length % 256)).toNat = _
    rw [UInt8.toNat_ofNat', UInt8.toNat_ofNat', Nat.mod_eq_of_lt (by omega : _ / 256 < 2 ^ 8),
      Nat.mod_eq_of_lt (by omega : _ % 256 < 2 ^ 8),
      ← Nat.shiftLeft_add_eq_or_of_lt (by omega : _ % 256 < 2 ^ 8), Nat.shiftLeft_eq]
    omega
  · rw [h]
    change (UInt8.ofNat r.padding.length).toNat = _
    rw [UInt8.toNat_ofNat']
    exact Nat.mod_eq_of_lt r.padding_lt

/-- What the record gives the client. -/
def payload : List α := if r.type = .stdout then r.content else []

end Record

/-- The records of one request. The body of `END_REQUEST` has eight bytes. -/
structure Reply {α : Type} (value : α → Byte) where
  records : List (Record value)
  last : Record value
  records_type : ∀ r ∈ records, r.type ≠ .endRequest
  last_type : last.type = .endRequest
  last_content : last.content.length = 8

def encode (rs : List (Record value)) : List α := rs.flatMap Record.encode

def payload (rs : List (Record value)) : List α := rs.flatMap Record.payload

theorem encode_cons (r : Record value) (rs : List (Record value)) :
    encode (r :: rs) = r.encode ++ encode rs := rfl

theorem payload_cons (r : Record value) (rs : List (Record value)) :
    payload (r :: rs) = r.payload ++ payload rs := rfl

def Reply.encode (reply : Reply value) : List α :=
  FastCgi.encode reply.records ++ reply.last.encode

/-- The data of the `STDOUT` records behind the header, which is all of it if no empty line ends it. -/
def Reply.body (reply : Reply value) : List α :=
  if headerSize ((payload reply.records).map value) = 0 then []
  else (payload reply.records).drop (headerSize ((payload reply.records).map value))

theorem payload_sublist (rs : List (Record value)) : (payload rs).Sublist (encode rs) := by
  induction rs with
  | nil => exact List.Sublist.slnil
  | cons r rs ih =>
    refine List.Sublist.append ?_ ih
    unfold Record.payload Record.encode
    split
    · exact (List.sublist_append_left _ _).trans (List.sublist_append_right _ _)
    · exact List.nil_sublist _

end Records

end MyServer.FastCgi
