import MyServer.MemBuf.Calls

/-!
# `MemoryStream`

What is written to it goes behind the buffer, what is read begins at a cursor of its own. The buffer cuts what
is written at its limit, and the stream does not ask how much was cut. The cursor is an `int`.
-/

open MyServer.Safety

namespace MyServer

namespace MemBuf

/-- So many bytes more are not cut. -/
def HasRoom (m : MemBuf) (n : Nat) : Prop := m.nSize + n ≤ m.nRealSize ∨ m.nSizeLimit = 0 ∨ m.nSize + n ≤ m.nSizeLimit

instance (m : MemBuf) (n : Nat) : Decidable (m.HasRoom n) := by
  unfold HasRoom
  infer_instance

def unlimited (m : MemBuf) : MemBuf := { m with nSizeLimit := 0 }

section

variable {junk : Nat → Byte} {h h' : Heap Byte} {m m' : MemBuf} {text : Str}

theorem represents_of_unlimited (hm : Represents h m.unlimited) (hlimit : m.nSizeLimit = 0 ∨ m.nRealSize ≤ m.nSizeLimit) :
    Represents h m := ⟨hm.size_le, hlimit, hm.allocated, hm.fits⟩

theorem Represents.unlimited (hm : Represents h m) : Represents h m.unlimited :=
  ⟨hm.size_le, Or.inl rfl, hm.allocated, hm.fits⟩

/-- The limit is not looked at where there is room. -/
theorem addBuffer_room (hroom : m.nSize + text.length ≤ m.nRealSize) :
    m.addBuffer junk (.outside text) h = (m.unlimited.addBuffer junk (.outside text) h).map fun r =>
      (r.1, { r.2 with nSizeLimit := m.nSizeLimit }) := by
  have hgrow : ∀ m : MemBuf, m.nSize + text.length ≤ m.nRealSize → m.grow junk text.length h = some (h, m) :=
    fun m hle => if_neg (Nat.not_lt.mpr hle)
  unfold addBuffer
  by_cases hempty : (Heap.Source.outside text).size = 0
  · rw [if_pos hempty, if_pos hempty]
    rfl
  · rw [if_neg hempty, if_neg hempty]
    have hleft := hgrow m hroom
    have hright := hgrow m.unlimited hroom
    change (m.grow junk text.length h).bind _ = ((m.unlimited.grow junk text.length h).bind _).map _
    rw [hleft, hright, Option.bind_some, Option.bind_some]
    unfold append unlimited
    dsimp only
    split_ifs
    · rfl
    · rw [Option.map_map]
      rfl
    · rw [Option.map_map]
      rfl

theorem addBuffer_fits (hm : Represents h m.unlimited) (hfits : m.HasRoom text.length) :
    ∃ h' m', m.addBuffer junk (.outside text) h = some (h', m') ∧ Represents h' m'.unlimited ∧
      m'.content h' = m.content h ++ text := by
  by_cases hroom : m.nSize + text.length ≤ m.nRealSize
  · obtain ⟨h', m', hcall, hm', hcontent, hlimit⟩ := @addBuffer_outside junk h m.unlimited hm text
    refine ⟨h', { m' with nSizeLimit := m.nSizeLimit }, ?_, hm'.unlimited, ?_⟩
    · rw [addBuffer_room hroom, hcall]
      rfl
    · exact hcontent
  · have hlimit := hfits.resolve_left hroom
    have hrep := represents_of_unlimited hm (by omega)
    obtain ⟨h', m', hcall, hm', hcontent, -⟩ := @addBuffer_outside junk h m hrep text
    refine ⟨h', m', hcall, hm'.unlimited, hcontent.trans ?_⟩
    have hlength := hrep.content_length
    unfold cut
    split_ifs with hzero
    · rfl
    · rw [List.take_of_length_le]
      rw [List.length_append]
      omega

/-- A limit below the capacity: the bytes are copied to a block that is too small. -/
theorem setRealLength_overflows (hm : Represents h m.unlimited) (hlimit : m.nSizeLimit ≠ 0)
    (hbelow : m.nSizeLimit < m.nRealSize) {n : Nat} (hn : m.nRealSize < n) : m.setRealLength junk n h = none := by
  have hnull : m.buffer ≠ none := by
    intro hnull
    have hfits := hm.fits
    rw [bytes, unlimited, hnull] at hfits
    have hzero : m.nRealSize ≤ 0 := hfits
    omega
  have hblock : h.block m.buffer = some (m.bytes h) := hm.block (Nat.lt_of_le_of_lt (Nat.zero_le _) hbelow)
  have hne := Heap.ne_fresh hblock
  unfold setRealLength resize
  rw [if_neg (by omega), if_pos ⟨hlimit, by omega⟩, if_neg (by omega), if_neg (not_or.mpr ⟨hnull, by omega⟩)]
  have hnew := @block_mealloc junk h m.nSizeLimit
  have hptr : (mealloc junk h m.nSizeLimit).2 = some h.length := rfl
  generalize mealloc junk h m.nSizeLimit = r at hnew hptr ⊢
  obtain ⟨g, temp⟩ := r
  obtain rfl : temp = some h.length := hptr
  dsimp only at hnew ⊢
  have hcopy : g.memcpy (some h.length) 0 (.inside m.buffer 0 m.nRealSize) m.nRealSize = none := by
    unfold Heap.memcpy Heap.store
    rw [if_neg (by omega), if_neg fun hover => hover.2.1 rfl, Option.bind_eq_none_iff]
    intro text hload
    have hlength := @Heap.load_length _ g text (.inside m.buffer 0 m.nRealSize) hload
    rw [hnew, if_pos rfl, Option.bind_some, if_neg]
    rw [List.length_map, List.length_range, hlength]
    simp only [Heap.Source.size]
    omega
  rw [hcopy]
  rfl

/-- What does not fit is cut, or lost with the block. -/
theorem addBuffer_cuts (hm : Represents h m.unlimited) (hfits : ¬m.HasRoom text.length)
    (hcall : m.addBuffer junk (.outside text) h = some (h', m')) :
    Represents h' m'.unlimited ∧ m.nSize ≤ m'.nSize ∧ m'.nSize < m.nSize + text.length := by
  unfold HasRoom at hfits
  rw [not_or, not_or] at hfits
  obtain ⟨hroom, hlimit, hle⟩ := hfits
  rcases Nat.lt_or_ge m.nSizeLimit m.nRealSize with hbelow | habove
  · have hfails : m.addBuffer junk (.outside text) h = none := by
      have hsize : (Heap.Source.outside text).size = text.length := rfl
      have hsmall := hm.size_le
      simp only [unlimited] at hsmall
      unfold addBuffer grow
      rw [hsize, if_neg (by omega), if_pos (by omega)]
      split_ifs with hblock
      · rw [setRealLength_overflows hm hlimit hbelow (by omega)]
        rfl
      · rw [setRealLength_overflows hm hlimit hbelow (by omega)]
        rfl
    rw [hfails] at hcall
    cases hcall
  · have hrep := represents_of_unlimited hm (Or.inr habove)
    obtain ⟨h₁, m₁, hcall₁, hm₁, hcontent, -⟩ := @addBuffer_outside junk h m hrep text
    cases hcall₁.symm.trans hcall
    have hlength := hm₁.content_length
    have hsize := hrep.size_le
    rw [hcontent, cut, if_neg hlimit, List.length_take, List.length_append, hrep.content_length] at hlength
    exact ⟨hm₁.unlimited, by omega, by omega⟩

end

end MemBuf

namespace Filters

structure MemoryStream where
  data : MemBuf
  readSeek : BitVec 32

namespace MemoryStream

/-- `data->getLength () - readSeek`, as a `size_t`. -/
def available (m : MemoryStream) : Nat :=
  if m.readSeek.toInt ≤ m.data.nSize then (m.data.nSize - m.readSeek.toInt).toNat
  else (2 ^ 64 + m.data.nSize - m.readSeek.toInt).toNat

/-- The bytes at the cursor. -/
def peek (len : Nat) (h : Heap Byte) (m : MemoryStream) : Option Str :=
  let nbr := min len m.available
  if nbr = 0 then some []
  else if m.readSeek.toInt < 0 then none
  else (Heap.Source.inside m.data.buffer m.readSeek.toNat nbr).load h nbr

def advance (n : Nat) (m : MemoryStream) : MemoryStream := { m with readSeek := m.readSeek + BitVec.ofNat 32 n }

def read (len : Nat) (h : Heap Byte) (m : MemoryStream) : Option (Str × MemoryStream) :=
  (m.peek len h).map fun bytes => (bytes, m.advance bytes.length)

/-- The other `read`: the stream `s` takes so many of the bytes that are written to it. -/
def readTo (s : Str → Nat) (len : Nat) (h : Heap Byte) (m : MemoryStream) : Option (Str × MemoryStream) :=
  (m.peek len h).map fun bytes => (bytes.take (s bytes), m.advance bytes.length)

section

variable (junk : Nat → Byte)

/-- The count comes first. -/
def write (text : Str) (h : Heap Byte) (m : MemoryStream) : Option (Nat × Heap Byte × MemoryStream) :=
  (m.data.addBuffer junk (.outside text) h).map fun r => (text.length, r.1, { m with data := r.2 })

/-- `MemoryStream::MemoryStream (MemBuf *)`. -/
def ofMemBuf (h : Heap Byte) (out : MemBuf) : Option (Heap Byte × MemoryStream) :=
  (out.setLength junk 0 h).map fun r => (r.1, ⟨r.2, 0⟩)

end

end MemoryStream

/-- A stream, with what the writes on it have reported and the reads have delivered. -/
structure Queue where
  heap : Heap Byte
  stream : MemoryStream
  reported : Str
  delivered : Str

inductive Use where
  | write (text : Str)
  | read (len : Nat)
  | readTo (s : Str → Nat) (len : Nat)

namespace Queue

section

variable (junk : Nat → Byte)

def step (q : Queue) : Use → Option Queue
  | .write text => (q.stream.write junk text q.heap).map fun r =>
    ⟨r.2.1, r.2.2, q.reported ++ text.take r.1, q.delivered⟩
  | .read len => (q.stream.read len q.heap).map fun r => { q with stream := r.2, delivered := q.delivered ++ r.1 }
  | .readTo s len => (q.stream.readTo s len q.heap).map fun r =>
    { q with stream := r.2, delivered := q.delivered ++ r.1 }

def start (h : Heap Byte) (out : MemBuf) : Option Queue :=
  (MemoryStream.ofMemBuf junk h out).map fun r => ⟨r.1, r.2, [], []⟩

/-- To read to the end delivers all that was reported. -/
def Whole (q : Queue) : Prop :=
  ∀ len, q.reported.length ≤ q.delivered.length + len → ∃ q', q.step junk (.read len) = some q' ∧ q'.delivered = q.reported

def Right (q : Queue) (u : Use) : Prop := ∃ q', q.step junk u = some q' ∧ q'.delivered <+: q'.reported ∧ q'.Whole junk

end

/-- What is written fits, the cursor stays an `int`, and it passes what was taken. -/
def Admits (q : Queue) : Use → Prop
  | .write text => q.stream.data.HasRoom text.length
  | .read len => q.stream.readSeek.toNat + min len q.stream.available < 2 ^ 31
  | .readTo s len => ∀ bytes ∈ q.stream.peek len q.heap, q.stream.readSeek.toNat + min (s bytes) bytes.length < 2 ^ 31 ∧
    (bytes.length - min (s bytes) bytes.length) % 2 ^ 32 = 0

instance (q : Queue) (u : Use) : Decidable (q.Admits u) := by
  cases u <;> unfold Admits <;> infer_instance

/-- What the steps keep. -/
structure Kept (q : Queue) : Prop where
  represents : MemBuf.Represents q.heap q.stream.data.unlimited
  written : q.stream.data.content q.heap = q.reported
  read : q.delivered <+: q.reported
  cursor : q.stream.readSeek = BitVec.ofNat 32 q.delivered.length
  lt : q.delivered.length < 2 ^ 31

section

variable {junk : Nat → Byte} {h : Heap Byte} {m : MemoryStream} {q q' : Queue} {u : Use} {len : Nat} {s : Str → Nat}
  {text : Str}

theorem peek_eq (hm : MemBuf.Represents h m.data.unlimited) (hlt : m.readSeek.toNat < 2 ^ 31)
    (hle : m.readSeek.toNat ≤ m.data.nSize) :
    m.peek len h = some (((m.data.content h).drop m.readSeek.toNat).take len) := by
  have hint : m.readSeek.toInt = m.readSeek.toNat := BitVec.toInt_eq_toNat_of_lt (by omega)
  have havailable : m.available = m.data.nSize - m.readSeek.toNat := by
    unfold MemoryStream.available
    rw [hint, if_pos (by omega)]
    omega
  have hlength : (m.data.content h).length = m.data.nSize := hm.content_length
  have hsize : m.data.nSize ≤ m.data.nRealSize := hm.size_le
  have hfits : m.data.nRealSize ≤ (m.data.bytes h).length := hm.fits
  unfold MemoryStream.peek
  rw [havailable]
  dsimp only
  split_ifs with hzero hneg
  · have hnil : ((m.data.content h).drop m.readSeek.toNat).take len = [] := by
      apply List.eq_nil_of_length_eq_zero
      rw [List.length_take, List.length_drop, hlength]
      exact hzero
    rw [hnil]
  · omega
  · have hblock : h.block m.data.buffer = some (m.data.bytes h) := hm.block (by simp only [MemBuf.unlimited]; omega)
    rw [Heap.Source.load_inside, if_neg hzero, hblock, Option.bind_some, if_pos (by omega)]
    congr 1
    unfold MemBuf.content
    rw [List.drop_take, List.take_take]

/-- A cursor that is negative. -/
theorem peek_negative (hge : 2 ^ 31 ≤ m.readSeek.toNat) (hlen : 0 < len) : m.peek len h = none := by
  have hneg : m.readSeek.toInt < 0 := by
    rw [BitVec.toInt_eq_toNat_cond, if_neg (by omega)]
    have hlt := m.readSeek.isLt
    omega
  have havailable : 0 < m.available := by
    unfold MemoryStream.available
    rw [if_pos (by omega)]
    omega
  unfold MemoryStream.peek
  dsimp only
  rw [if_neg (by omega), if_pos hneg]

theorem step_read (q : Queue) (len : Nat) : q.step junk (.read len) = q.step junk (.readTo List.length len) := by
  simp only [step, MemoryStream.read, MemoryStream.readTo]
  rw [Option.map_map, Option.map_map]
  congr 1
  funext bytes
  simp only [Function.comp_apply, List.take_length]

theorem Kept.position (hq : q.Kept) : q.stream.readSeek.toNat = q.delivered.length := by
  have hlt := hq.lt
  rw [hq.cursor, BitVec.toNat_ofNat]
  omega

theorem Kept.position_le (hq : q.Kept) : q.delivered.length ≤ q.stream.data.nSize := by
  have hlength : (q.stream.data.content q.heap).length = q.stream.data.nSize := hq.represents.content_length
  rw [← hlength, hq.written]
  exact hq.read.length_le

theorem Kept.peek (hq : q.Kept) : q.stream.peek len q.heap = some ((q.reported.drop q.delivered.length).take len) := by
  have hlt := hq.lt
  have hle := hq.position_le
  rw [← hq.position] at hlt hle
  rw [peek_eq hq.represents hlt hle, hq.written, hq.position]

theorem Kept.whole (hq : q.Kept) : q.Whole junk := by
  intro len hlen
  refine ⟨_, by rw [step, MemoryStream.read, hq.peek]; rfl, ?_⟩
  obtain ⟨rest, hrest⟩ := hq.read
  rw [← hrest, List.length_append] at hlen
  dsimp only
  rw [← hrest, List.drop_left, List.take_of_length_le (by omega)]

theorem admits_read (hq : q.Kept) : q.Admits (.read len) ↔ q.Admits (.readTo List.length len) := by
  have hint : q.stream.readSeek.toInt = q.stream.readSeek.toNat := by
    have hlt := hq.lt
    rw [← hq.position] at hlt
    exact BitVec.toInt_eq_toNat_of_lt (by omega)
  have hle := hq.position_le
  have hposition := hq.position
  have hlength : (q.stream.data.content q.heap).length = q.stream.data.nSize := hq.represents.content_length
  have hreported := hlength
  rw [hq.written] at hreported
  have havailable : q.stream.available = q.stream.data.nSize - q.delivered.length := by
    unfold MemoryStream.available
    rw [hint, if_pos (by omega)]
    omega
  simp only [Admits]
  rw [hq.peek, havailable]
  simp only [Option.mem_some_iff, forall_eq', Nat.min_self, Nat.sub_self, Nat.zero_mod, and_true]
  rw [List.length_take, List.length_drop, hreported]

/-! ## Writes -/

theorem write_kept (hq : q.Kept) (hfits : q.Admits (.write text)) :
    ∃ q', q.step junk (.write text) = some q' ∧ q'.Kept := by
  obtain ⟨h', m', hcall, hm', hcontent⟩ := @MemBuf.addBuffer_fits junk _ _ _ hq.represents hfits
  refine ⟨⟨h', ⟨m', q.stream.readSeek⟩, q.reported ++ text, q.delivered⟩, ?_, ⟨hm', ?_, ?_, hq.cursor, hq.lt⟩⟩
  · rw [step, MemoryStream.write, hcall, Option.map_some, Option.map_some, List.take_length]
  · exact hcontent.trans (congrArg (· ++ text) hq.written)
  · exact hq.read.trans (List.prefix_append _ _)

theorem fits_of_right (hq : q.Kept) (hright : q.Right junk (.write text)) : q.Admits (.write text) := by
  obtain ⟨q', hstep, -, hwhole⟩ := hright
  rw [step, MemoryStream.write, Option.map_map] at hstep
  obtain ⟨r, hcall, heq⟩ := Option.map_eq_some_iff.mp hstep
  by_contra hfits
  obtain ⟨hm', hle, hlt⟩ := MemBuf.addBuffer_cuts hq.represents hfits hcall
  have hlength : (q.stream.data.content q.heap).length = q.stream.data.nSize := hq.represents.content_length
  have hlength' : (r.2.content r.1).length = r.2.nSize := hm'.content_length
  have hposition := hq.position
  have hposition_le := hq.position_le
  have hposition_lt := hq.lt
  rw [hq.written] at hlength
  subst heq
  simp only [Function.comp_apply, List.take_length] at hwhole
  obtain ⟨q'', hread, hdelivered⟩ := hwhole (q.reported ++ text).length (Nat.le_add_left _ _)
  have hpeek := @peek_eq r.1 ⟨r.2, q.stream.readSeek⟩ (q.reported ++ text).length hm' (by dsimp only; omega)
    (by dsimp only; omega)
  rw [step, MemoryStream.read] at hread
  dsimp only at hread hpeek hdelivered
  rw [hpeek] at hread
  cases hread
  have hcount := congrArg List.length hdelivered
  simp only [List.length_append, List.length_take, List.length_drop] at hcount
  omega

/-! ## Reads -/

theorem read_kept (hq : q.Kept) (hadmits : q.Admits (.readTo s len)) :
    ∃ q', q.step junk (.readTo s len) = some q' ∧ q'.Kept := by
  obtain ⟨hlt, hmod⟩ := hadmits _ hq.peek
  have hposition := hq.position
  obtain ⟨rest, hrest⟩ := hq.read
  let bytes := (q.reported.drop q.delivered.length).take len
  refine ⟨{ q with stream := q.stream.advance bytes.length, delivered := q.delivered ++ bytes.take (s bytes) }, ?_,
    ⟨hq.represents, hq.written, ?_, ?_, ?_⟩⟩
  · rw [step, MemoryStream.readTo, hq.peek]
    rfl
  · dsimp only [bytes]
    rw [← hrest, List.drop_left, List.take_take]
    exact (List.prefix_append_right_inj _).mpr (List.take_prefix _ _)
  · simp only [bytes, MemoryStream.advance, List.length_append, List.length_take]
    rw [hq.cursor]
    apply BitVec.eq_of_toNat_eq
    rw [BitVec.toNat_add, BitVec.toNat_ofNat, BitVec.toNat_ofNat, BitVec.toNat_ofNat]
    rw [List.length_take] at hmod
    omega
  · dsimp only [bytes]
    rw [List.length_append, List.length_take]
    omega

theorem admits_of_right_read (hq : q.Kept) (hright : q.Right junk (.readTo s len)) : q.Admits (.readTo s len) := by
  intro bytes hbytes
  obtain rfl := Option.some.inj (hq.peek.symm.trans hbytes)
  obtain ⟨q', hstep, -, hwhole⟩ := hright
  rw [step, MemoryStream.readTo, hq.peek] at hstep
  cases hstep
  have hlength : (q.stream.data.content q.heap).length = q.stream.data.nSize := hq.represents.content_length
  have hposition := hq.position
  have hposition_le := hq.position_le
  rw [hq.written] at hlength
  have hbytes : ((q.reported.drop q.delivered.length).take len).length ≤ q.stream.data.nSize - q.delivered.length := by
    rw [List.length_take, List.length_drop, hlength]
    exact Nat.min_le_right _ _
  generalize (q.reported.drop q.delivered.length).take len = bytes at hwhole hbytes ⊢
  obtain ⟨q'', hread, hdelivered⟩ := hwhole (q.reported.length + 1) (by dsimp only; omega)
  have hcursor : (q.stream.advance bytes.length).readSeek.toNat = (q.delivered.length + bytes.length) % 2 ^ 32 := by
    unfold MemoryStream.advance
    dsimp only
    rw [BitVec.toNat_add, BitVec.toNat_ofNat, hposition]
    omega
  rcases Nat.lt_or_ge (q.stream.advance bytes.length).readSeek.toNat (2 ^ 31) with hlt | hge
  · have hpeek := @peek_eq q.heap (q.stream.advance bytes.length) (q.reported.length + 1) hq.represents hlt
      (by rw [hcursor]; exact (Nat.mod_le _ _).trans (by simp only [MemoryStream.advance]; omega))
    have hcontent : (q.stream.advance bytes.length).data.content q.heap = q.reported := hq.written
    rw [hcontent] at hpeek
    rw [step, MemoryStream.read] at hread
    dsimp only at hread hdelivered
    rw [hpeek] at hread
    cases hread
    have hcount := congrArg List.length hdelivered
    simp only [List.length_append, List.length_take, List.length_drop] at hcount
    omega
  · have hpeek := @peek_negative q.heap _ (q.reported.length + 1) hge (Nat.succ_pos _)
    rw [step, MemoryStream.read] at hread
    dsimp only at hread
    rw [hpeek] at hread
    cases hread

/-! ## Runs -/

theorem admitted_kept (hq : q.Kept) (hadmits : q.Admits u) : ∃ q', q.step junk u = some q' ∧ q'.Kept := by
  cases u with
  | write text => exact write_kept hq hadmits
  | read len =>
    rw [step_read]
    exact read_kept hq ((admits_read hq).mp hadmits)
  | readTo s len => exact read_kept hq hadmits

theorem right_iff (hq : q.Kept) : q.Right junk u ↔ q.Admits u := by
  constructor
  · intro hright
    cases u with
    | write text => exact fits_of_right hq hright
    | read len =>
      refine (admits_read hq).mpr (@admits_of_right_read junk _ _ _ hq ?_)
      unfold Right at hright ⊢
      rwa [← step_read]
    | readTo s len => exact admits_of_right_read hq hright
  · intro hadmits
    obtain ⟨q', hstep, hq'⟩ := @admitted_kept junk _ _ hq hadmits
    exact ⟨q', hstep, hq'.read, hq'.whole⟩

theorem start_kept {out : MemBuf} (hout : MemBuf.Represents h out.unlimited) (hstart : start junk h out = some q) :
    q.Kept := by
  have hlength : out.setLength junk 0 h = some (h, { out with nSize := 0 }) := by
    unfold MemBuf.setLength MemBuf.setRealLength
    have hsize : (if 0 < out.nRealSize then 0 else out.nRealSize) = 0 := by
      split_ifs with hpos
      · rfl
      · exact Nat.le_zero.mp (Nat.le_of_not_lt hpos)
    rw [if_pos (Nat.zero_le _), Option.map_some]
    dsimp only
    rw [hsize]
  rw [start, MemoryStream.ofMemBuf, hlength] at hstart
  cases hstart
  exact ⟨⟨Nat.zero_le _, hout.limit, hout.allocated, hout.fits⟩, List.take_zero, List.prefix_refl _, rfl, Nat.two_pow_pos _⟩

/-- **The queue of bytes.** A run is right at every step exactly when no write is cut, no cursor passes the end of
its type and no bytes are passed that another stream did not take. -/
theorem queued_iff (junk : Nat → Byte) (h : Heap Byte) (out : MemBuf) (uses : List Use) (q : Queue)
    (hout : MemBuf.Represents h out.unlimited) (hstart : start junk h out = some q) :
    Along (step junk) (Right junk) uses q ↔ Along (step junk) Admits uses q := by
  refine @along_congr _ _ _ Kept _ _ _ _ ?_ ?_ (start_kept hout hstart)
  · intro q u q' hq hadmits hstep
    obtain ⟨q₁, hstep₁, hq₁⟩ := @admitted_kept junk _ _ hq hadmits
    obtain rfl := Option.some.inj (hstep₁.symm.trans hstep)
    exact hq₁
  · exact fun q u hq => right_iff hq

end

/-- Two writes and two reads. -/
theorem queued_hello : Along (step fun _ => 0) (Right fun _ => 0) [.write (ascii "hel"), .read 2, .write (ascii "lo"), .read 9]
    ⟨[some (ascii "-----")], ⟨⟨some 0, 0, 5, 0, 1024, true⟩, 0⟩, [], []⟩ := by
  have hout := @MemBuf.represents_block (ascii "-----") 5 le_rfl
  refine (queued_iff _ _ _ _ _ hout.unlimited rfl).mpr ?_
  decide

/-- The write of three bytes to a buffer with a limit of two is reported as whole. -/
theorem cut_is_reported : ¬∀ (junk : Nat → Byte) (h : Heap Byte) (out : MemBuf) (uses : List Use) (q : Queue),
    MemBuf.Represents h out.unlimited → start junk h out = some q → Along (step junk) (Right junk) uses q := by
  intro hall
  have hout := (MemBuf.represents_new []).unlimited
  have hrun := hall (fun _ => 0) [] { MemBuf.new with nSizeLimit := 2 } [.write (ascii "abc")] _ hout rfl
  have hkept := @start_kept (fun _ => 0) [] _ { MemBuf.new with nSizeLimit := 2 } hout rfl
  exact absurd ((right_iff hkept).mp hrun.1) (by decide)

end Queue

end Filters

end MyServer
