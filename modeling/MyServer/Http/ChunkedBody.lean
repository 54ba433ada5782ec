import MyServer.Http.ChunkSize

/-!
# Chunked bodies

A body is a list of chunks, a last chunk of size 0 and a trailer. The reader is
followed through one from any source that holds it.
-/

namespace MyServer

/-- No extension, or one from a `;` on. -/
def IsExtension (ext : Str) : Prop := ext = [] ∨ ∃ e, ext = ch ';' :: e

theorem isExtension_nil : IsExtension [] := Or.inl rfl

structure Chunk where
  digits : Str
  ext : Str
  payload : Str
  hex : digits.all isHexDigit
  short : digits.length ≤ 18
  value : hexValue digits = payload.length
  extension : IsExtension ext
  payload_ne : payload ≠ []
  payload_lt : payload.length < 2 ^ 31

namespace Chunk

def line (chunk : Chunk) : Str := chunk.digits ++ chunk.ext

def encode (chunk : Chunk) : Str := chunk.line ++ crlf ++ chunk.payload ++ crlf

end Chunk

structure Body where
  chunks : List Chunk
  zeros : Str
  ext : Str
  trailer : List Str
  zeros_ne : zeros ≠ []
  zeros_eq : ∀ b ∈ zeros, b = ch '0'
  extension : IsExtension ext

namespace Body

def lastLine (body : Body) : Str := body.zeros ++ body.ext

/-- The trailer section, through the CRLF that ends it. -/
def trailerSection (body : Body) : Str := body.trailer.flatMap (· ++ crlf) ++ crlf

def encode (body : Body) : Str :=
  body.chunks.flatMap Chunk.encode ++ (body.lastLine ++ crlf ++ body.trailerSection)

def payload (body : Body) : Str := body.chunks.flatMap Chunk.payload

end Body

/-! ## Size lines of a body -/

theorem takeWhile_digits {d ext : Str} (hd : d.all isHexDigit) (hext : IsExtension ext) :
    (d ++ ext).takeWhile (· ≠ ch ';') = d := by
  have hall : ∀ b ∈ d, decide (b ≠ ch ';') = true := by
    intro b hb
    simpa using (hexDigit_ne (List.all_eq_true.mp hd b hb)).2.2
  rw [List.takeWhile_append_of_pos hall]
  rcases hext with rfl | ⟨e, rfl⟩
  · exact List.append_nil d
  · rw [List.takeWhile_cons_of_neg (by simp), List.append_nil]

/-- A chunk's size is read right unless it has an extension; then it is read as 0. -/
theorem Chunk.sizeOf_line (chunk : Chunk) :
    chunk.ext = [] ∧ sizeOf (sizeChars chunk.line) = chunk.payload.length ∨
      chunk.ext ≠ [] ∧ sizeOf (sizeChars chunk.line) = 0 := by
  have hlt := chunk.payload_lt
  have hshort := chunk.short
  unfold Chunk.line
  rcases chunk.extension with h | ⟨e, h⟩
  · refine Or.inl ⟨h, ?_⟩
    rw [h, List.append_nil, ← chunk.value]
    rw [← chunk.value] at hlt
    exact sizeOf_of_plain chunk.hex hlt (by omega)
  · refine Or.inr ⟨by rw [h]; exact List.cons_ne_nil _ _, ?_⟩
    rw [h]
    exact sizeOf_of_extension chunk.hex (by omega)

theorem hexValue_zeros {s : Str} (h : ∀ b ∈ s, b = ch '0') : hexValue s = 0 := by
  unfold hexValue
  induction s with
  | nil => rfl
  | cons b s ih =>
    have hb : b = ch '0' := h b List.mem_cons_self
    rw [List.foldl_cons, hb]
    exact ih fun a ha => h a (List.mem_cons_of_mem b ha)

theorem Body.sizeOf_lastLine (body : Body) : sizeOf (sizeChars body.lastLine) = 0 := by
  have hhex : body.zeros.all isHexDigit := by
    rw [List.all_eq_true]
    intro b hb
    rw [body.zeros_eq b hb]
    decide
  refine (sizeOf_eq_iff (n := 0) ⟨?_, ?_, ?_⟩ (by norm_num)).mpr (Or.inl rfl) <;>
    unfold Body.lastLine <;> rw [takeWhile_digits hhex body.extension]
  · exact body.zeros_ne
  · exact hhex
  · exact hexValue_zeros body.zeros_eq

theorem sizeOf_lf (line : Str) : sizeOf (sizeChars (ch '\n' :: line)) = 0 := by
  apply sizeOf_of_not_hex
  unfold sizeChars cstr
  rw [List.takeWhile_cons_of_pos (by decide), List.take_succ_cons,
    List.takeWhile_cons_of_pos (by decide), List.all_cons]
  intro h
  exact absurd (Bool.and_eq_true _ _ ▸ h).1 (by decide)

theorem readSizeLine_within {c : Conn} (hproper : Fragments.Proper c.socket) {line rest : Str}
    (hunread : c.unread = line ++ crlf ++ rest) :
    ∃ c', readSizeLine c = some (sizeOf (sizeChars line), c') ∧
      rest.length ≤ c'.unread.length := by
  obtain ⟨b, d, u, hsplit, hcr, hend⟩ := sizeLine_split line rest
  have hlen := congrArg List.length hsplit
  rw [hsplit] at hunread
  obtain ⟨c', hread, hu, -⟩ := readSizeLine_eq hcr hend hproper hunread
  refine ⟨c', hread, ?_⟩
  have hle := (sizeChars_initial line).length_le
  rw [hu]
  simp [crlf] at hlen
  omega

theorem Chunk.readSizeLine_whole {chunk : Chunk} (hext : chunk.ext = []) {c : Conn}
    (hproper : Fragments.Proper c.socket) {rest : Str}
    (hunread : c.unread = chunk.line ++ crlf ++ rest) :
    ∃ c', readSizeLine c = some (chunk.payload.length, c') ∧ c'.unread = rest ∧
      Fragments.Proper c'.socket ∧
      ∀ k, 0 < k → (c'.CutAt k ↔ c.CutAt (chunk.line.length + 2 + k)) := by
  have hshort := chunk.short
  have hline : chunk.line = chunk.digits := by rw [Chunk.line, hext, List.append_nil]
  have hcr : ch '\r' ∉ chunk.digits := by
    intro h
    exact (hexDigit_ne (List.all_eq_true.mp chunk.hex _ h)).2.1 rfl
  have hsize := sizeOf_of_plain chunk.hex (by rw [chunk.value]; exact chunk.payload_lt) (by omega)
  rw [sizeChars_of_plain chunk.hex (by omega), chunk.value] at hsize
  rw [hline] at hunread ⊢
  rw [← hsize]
  refine readSizeLine_eq (d := ch '\n') hcr (Or.inl ⟨rfl, by omega⟩) hproper ?_
  rw [hunread, List.append_assoc]
  rfl

end MyServer
