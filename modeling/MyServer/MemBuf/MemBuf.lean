import MyServer.Bytes
import MyServer.Lib.Heap

/-!
# `MemBuf`

A length, a capacity and a pointer to the bytes. The memory of the process is a heap of blocks, so that two
buffers can point to the same bytes.
-/

namespace MyServer

structure MemBuf where
  buffer : Heap.Ptr
  nSize : Nat
  nRealSize : Nat
  /-- 0 where there is none. -/
  nSizeLimit : Nat
  nBlockLength : Nat
  bCanDelete : Bool
deriving DecidableEq

namespace MemBuf

/-- `MemBuf::MemBuf ()`. -/
def new : MemBuf := ⟨none, 0, 0, 0, 1024, true⟩

def bytes (h : Heap Byte) (m : MemBuf) : Str := (h.block m.buffer).getD []

/-- The first `nSize` bytes. -/
def content (h : Heap Byte) (m : MemBuf) : Str := (m.bytes h).take m.nSize

def setSizeLimit (newSize : Nat) (m : MemBuf) : MemBuf := { m with nSizeLimit := newSize }

def free (h : Heap Byte) (m : MemBuf) : Option (Heap Byte × MemBuf) :=
  if m.buffer ≠ none ∧ m.bCanDelete then
    (h.free m.buffer).map fun h => (h, { m with buffer := none, nSize := 0, nRealSize := 0 })
  else some (h, m)

/-- `mefree (buffer)`, where the buffer is its own. -/
def mefree (h : Heap Byte) (m : MemBuf) : Option (Heap Byte) := if m.bCanDelete then h.free m.buffer else some h

section

-- What a new block holds.
variable (junk : Nat → Byte)

def mealloc (h : Heap Byte) (size : Nat) : Heap Byte × Heap.Ptr := h.alloc ((List.range size).map junk)

def allocBuffer (size : Nat) (h : Heap Byte) (m : MemBuf) : Option (Heap Byte × MemBuf) :=
  if m.nRealSize < size ∨ m.buffer = none then
    (m.free h).map fun r => ((mealloc junk r.1 size).1, { r.2 with buffer := (mealloc junk r.1 size).2, nRealSize := size })
  else some (h, m)

/-- The end of `setRealLength`. -/
def resize (newSize : Nat) (h : Heap Byte) (m : MemBuf) : Option (Heap Byte × MemBuf) :=
  if m.buffer = none ∨ m.nRealSize = 0 then m.allocBuffer junk newSize h
  else
    let (h, temp) := mealloc junk h newSize
    do
      let h ← h.memcpy temp 0 (.inside m.buffer 0 m.nRealSize) m.nRealSize
      let h ← m.mefree h
      some (h, { m with buffer := temp, nRealSize := newSize })

def setRealLength (newSize : Nat) (h : Heap Byte) (m : MemBuf) : Option (Heap Byte × MemBuf) :=
  if newSize ≤ m.nRealSize then some (h, m)
  else if m.nSizeLimit ≠ 0 ∧ m.nSizeLimit < newSize then
    if m.nSizeLimit = m.nRealSize then some (h, m) else m.resize junk m.nSizeLimit h
  else m.resize junk newSize h

def setLength (newSize : Nat) (h : Heap Byte) (m : MemBuf) : Option (Heap Byte × MemBuf) :=
  (m.setRealLength junk newSize h).map fun r =>
    (r.1, { r.2 with nSize := if newSize < r.2.nRealSize then newSize else r.2.nRealSize })

/-- The growth at the beginning of `addBuffer`. -/
def grow (size : Nat) (h : Heap Byte) (m : MemBuf) : Option (Heap Byte × MemBuf) :=
  if m.nRealSize < m.nSize + size then
    if m.nSize + size - m.nRealSize < m.nBlockLength then m.setRealLength junk (m.nRealSize + m.nBlockLength) h
    else m.setRealLength junk (m.nSize + size) h
  else some (h, m)

/-- The copy at its end. -/
def append (src : Heap.Source Byte) (h : Heap Byte) (m : MemBuf) : Option (Heap Byte × MemBuf) :=
  let nAllowedSize := m.nRealSize - m.nSize
  if nAllowedSize = 0 then some (h, m)
  else if nAllowedSize < src.size then
    (h.memcpy m.buffer m.nSize src nAllowedSize).map fun h => (h, { m with nSize := m.nRealSize })
  else (h.memcpy m.buffer m.nSize src src.size).map fun h => (h, { m with nSize := m.nSize + src.size })

def addBuffer (src : Heap.Source Byte) (h : Heap Byte) (m : MemBuf) : Option (Heap Byte × MemBuf) :=
  if src.size = 0 then some (h, m)
  else (m.grow junk src.size h).bind fun r => r.2.append src r.1

def setBuffer (src : Heap.Source Byte) (h : Heap Byte) (m : MemBuf) : Option (Heap Byte × MemBuf) :=
  if src.size ≤ m.nRealSize then
    (h.memcpy m.buffer 0 src src.size).map fun h => (h, { m with nSize := src.size })
  else
    let size := if m.nSizeLimit ≠ 0 ∧ m.nSizeLimit < src.size then m.nSizeLimit else src.size
    (m.allocBuffer junk size h).bind fun r =>
      (r.1.memcpy r.2.buffer 0 src size).map fun h => (h, { r.2 with nSize := size, nRealSize := size })

end

/-! ## Buffers that are represented -/

/-- **The representation.** -/
structure Represents (h : Heap Byte) (m : MemBuf) : Prop where
  size_le : m.nSize ≤ m.nRealSize
  limit : m.nSizeLimit = 0 ∨ m.nRealSize ≤ m.nSizeLimit
  allocated : ∀ a, m.buffer = some a → (h.block (some a)).isSome
  fits : m.nRealSize ≤ (m.bytes h).length

/-- As much of a size as the limit allows. -/
def capped (m : MemBuf) (n : Nat) : Nat := if m.nSizeLimit = 0 then n else min n m.nSizeLimit

/-- The bytes of `m` are in a new block of this size now, and the old block is given back where it was its own. -/
structure Moved (h : Heap Byte) (m : MemBuf) (size : Nat) (h' : Heap Byte) : Prop where
  fresh : ∃ b, h'.block (some h.length) = some b ∧ b.length = size ∧ b.take m.nRealSize = (m.bytes h).take m.nRealSize
  others : ∀ p, p ≠ some h.length → h'.block p = if m.bCanDelete = true ∧ p = m.buffer then none else h.block p

def moved (h : Heap Byte) (m : MemBuf) (size : Nat) : MemBuf := { m with buffer := some h.length, nRealSize := size }

theorem represents_new (h : Heap Byte) : Represents h new where
  size_le := le_rfl
  limit := Or.inl rfl
  allocated a ha := by cases ha
  fits := le_rfl

/-- A buffer that has a block of its own. -/
theorem represents_block {text : Str} {n : Nat} (hn : n ≤ text.length) :
    Represents [some text] ⟨some 0, n, text.length, 0, 1024, true⟩ where
  size_le := hn
  limit := Or.inl rfl
  allocated a ha := by
    cases ha
    rfl
  fits := le_rfl

section

variable {junk : Nat → Byte} {h h' : Heap Byte} {m m' : MemBuf} {n size : Nat} {src : Heap.Source Byte} {text : Str}

theorem Represents.content_length (hm : Represents h m) : (m.content h).length = m.nSize :=
  List.length_take_of_le (hm.size_le.trans hm.fits)

theorem Represents.block (hm : Represents h m) (hpos : 0 < m.nRealSize) : h.block m.buffer = some (m.bytes h) := by
  unfold bytes
  cases hb : h.block m.buffer with
  | none =>
    have hfits := hm.fits
    rw [bytes, hb] at hfits
    exact absurd hpos (Nat.not_lt.mpr hfits)
  | some b => rfl

theorem Moved.represents (hmoved : Moved h m size h') (hm : Represents h m) (hsize : m.nRealSize ≤ size)
    (hlimit : m.nSizeLimit = 0 ∨ size ≤ m.nSizeLimit) : Represents h' (m.moved h size) where
  size_le := hm.size_le.trans hsize
  limit := hlimit
  allocated a ha := by
    obtain ⟨b, hb, -⟩ := hmoved.fresh
    cases ha
    rw [hb]
    rfl
  fits := by
    obtain ⟨b, hb, hlength, -⟩ := hmoved.fresh
    have hbytes : (m.moved h size).bytes h' = b := by
      rw [bytes]
      exact congrArg (Option.getD · []) hb
    rw [hbytes, hlength]
    exact le_rfl

theorem Moved.content_eq (hmoved : Moved h m size h') (hm : Represents h m) :
    (m.moved h size).content h' = m.content h := by
  obtain ⟨b, hb, -, htake⟩ := hmoved.fresh
  have hbytes : (m.moved h size).bytes h' = b := by
    rw [bytes]
    exact congrArg (Option.getD · []) hb
  have hprefix := congrArg (List.take m.nSize) htake
  rw [List.take_take, List.take_take, Nat.min_eq_left hm.size_le] at hprefix
  rw [content, hbytes]
  exact hprefix

/-! ## Growing -/

theorem block_mealloc (h : Heap Byte) (size : Nat) (p : Heap.Ptr) :
    (mealloc junk h size).1.block p = if p = some h.length then some ((List.range size).map junk) else h.block p :=
  Heap.block_alloc h _ p

/-- Only the length is reset, and only where the old block is given back. -/
theorem allocBuffer_fresh (hm : Represents h m) (hlt : m.nRealSize < size) :
    ∃ h' k b, m.allocBuffer junk size h = some (h', { m.moved h size with nSize := k }) ∧ (m.nSize = 0 → k = 0) ∧
      h'.block (some h.length) = some b ∧ b.length = size ∧
      ∀ p, p ≠ some h.length → h'.block p = if m.bCanDelete = true ∧ p = m.buffer then none else h.block p := by
  have hlength : ((List.range size).map junk).length = size := by rw [List.length_map, List.length_range]
  unfold allocBuffer
  rw [if_pos (Or.inl hlt), free]
  by_cases hown : m.buffer ≠ none ∧ m.bCanDelete = true
  · obtain ⟨a, ha⟩ := Option.ne_none_iff_exists'.mp hown.1
    obtain ⟨b, hb⟩ := Option.isSome_iff_exists.mp (hm.allocated a ha)
    rw [← ha] at hb
    have hput := Heap.length_put h m.buffer none
    refine ⟨(mealloc junk (h.put m.buffer none) size).1, 0, _, ?_, fun _ => rfl, ?_, hlength, ?_⟩
    · rw [if_pos hown, Heap.free, hb]
      simp [mealloc, Heap.alloc, hput, moved]
    · rw [block_mealloc, hput, if_pos rfl]
    · intro p hp
      rw [block_mealloc, hput, if_neg hp, Heap.block_put hb]
      simp only [hown.2, true_and]
  · refine ⟨(mealloc junk h size).1, m.nSize, _, ?_, id, ?_, hlength, ?_⟩
    · rw [if_neg hown]
      rfl
    · rw [block_mealloc, if_pos rfl]
    · intro p hp
      rw [block_mealloc, if_neg hp]
      split_ifs with hfree
      · have hnull : m.buffer = none := by
          by_contra hne
          exact hown ⟨hne, hfree.1⟩
        rw [hfree.2, hnull]
        rfl
      · rfl

theorem allocBuffer_moves (hm : Represents h m) (hzero : m.nRealSize = 0) (hsize : 0 < size) :
    ∃ h', m.allocBuffer junk size h = some (h', m.moved h size) ∧ Moved h m size h' := by
  have hnSize : m.nSize = 0 := Nat.le_zero.mp (hzero ▸ hm.size_le)
  obtain ⟨h', k, b, hcall, hk, hfresh, hlength, hothers⟩ := allocBuffer_fresh hm (hzero ▸ hsize)
  obtain rfl := hk hnSize
  refine ⟨h', ?_, ⟨⟨b, hfresh, hlength, by rw [hzero]; rfl⟩, hothers⟩⟩
  rw [hcall, ← hnSize]
  rfl

theorem resize_moves (hm : Represents h m) (hlt : m.nRealSize < size) :
    ∃ h', m.resize junk size h = some (h', m.moved h size) ∧ Moved h m size h' := by
  unfold resize
  by_cases hzero : m.buffer = none ∨ m.nRealSize = 0
  · rw [if_pos hzero]
    have hreal : m.nRealSize = 0 := by
      rcases hzero with hnull | hreal
      · have hfits := hm.fits
        rw [bytes, hnull] at hfits
        exact Nat.le_zero.mp hfits
      · exact hreal
    exact allocBuffer_moves hm hreal (hreal ▸ hlt)
  · rw [if_neg hzero]
    rw [not_or] at hzero
    have hblock := hm.block (Nat.pos_of_ne_zero hzero.2)
    have hne : m.buffer ≠ some h.length := Heap.ne_fresh hblock
    have hroom : 0 + m.nRealSize ≤ ((List.range size).map junk).length := by
      rw [List.length_map, List.length_range]
      omega
    have hnew := @block_mealloc junk h size
    have hptr : (mealloc junk h size).2 = some h.length := rfl
    generalize mealloc junk h size = r at hnew hptr ⊢
    obtain ⟨g, temp⟩ := r
    obtain rfl : temp = some h.length := hptr
    dsimp only at hnew ⊢
    have hload : (Heap.Source.inside m.buffer 0 m.nRealSize).load g m.nRealSize =
        some ((m.bytes h).take m.nRealSize) := by
      rw [Heap.Source.load_inside, if_neg hzero.2, hnew, if_neg hne, hblock, Option.bind_some, Nat.zero_add,
        if_pos hm.fits, List.drop_zero]
    have htext : ((m.bytes h).take m.nRealSize).length = m.nRealSize := List.length_take_of_le hm.fits
    have hfresh := (hnew (some h.length)).trans (if_pos rfl)
    have hcopy := Heap.memcpy_eq hfresh hload htext hroom (fun hover => hover.2.1 rfl) hzero.2
    have hspliced := Heap.length_splice (htext.symm ▸ hroom)
    have htake := @Heap.take_splice _ ((List.range size).map junk) ((m.bytes h).take m.nRealSize) 0 (Nat.zero_le _)
    rw [Nat.zero_add, htext, List.take_zero, List.nil_append] at htake
    rw [List.length_map, List.length_range] at hspliced
    generalize Heap.splice ((List.range size).map junk) 0 ((m.bytes h).take m.nRealSize) = spliced
      at hcopy hspliced htake
    have hput := Heap.block_put hfresh (some spliced)
    have hown : (g.put (some h.length) (some spliced)).block m.buffer = some (m.bytes h) := by
      rw [hput, if_neg hne, hnew, if_neg hne, hblock]
    rw [hcopy, Option.bind_eq_bind, Option.bind_some, mefree]
    by_cases hdelete : m.bCanDelete = true
    · refine ⟨(g.put (some h.length) (some spliced)).put m.buffer none, ?_, ⟨⟨spliced, ?_, hspliced, htake⟩, ?_⟩⟩
      · rw [if_pos hdelete, Heap.free, hown]
        rfl
      · rw [Heap.block_put hown, if_neg hne.symm, hput, if_pos rfl]
      · intro p hp
        rw [Heap.block_put hown, hput, if_neg hp, hnew, if_neg hp]
        simp only [hdelete, true_and]
    · refine ⟨g.put (some h.length) (some spliced), ?_, ⟨⟨spliced, ?_, hspliced, htake⟩, ?_⟩⟩
      · rw [if_neg hdelete]
        rfl
      · rw [hput, if_pos rfl]
      · intro p hp
        rw [hput, if_neg hp, hnew, if_neg hp, if_neg fun hfree => hdelete hfree.1]

theorem setRealLength_of_capped_le (hm : Represents h m) (hle : m.capped n ≤ m.nRealSize) :
    m.setRealLength junk n h = some (h, m) := by
  unfold setRealLength
  split_ifs with hn hlimited hfull
  · rfl
  · rfl
  · rw [capped, if_neg hlimited.1] at hle
    have hlimit := hm.limit.resolve_left hlimited.1
    omega
  · unfold capped at hle
    split_ifs at hle with hlimit
    · omega
    · omega

theorem setRealLength_moves (hm : Represents h m) (hlt : m.nRealSize < m.capped n) :
    ∃ h', m.setRealLength junk n h = some (h', m.moved h (m.capped n)) ∧ Moved h m (m.capped n) h' := by
  have hn : ¬n ≤ m.nRealSize := by
    unfold capped at hlt
    split_ifs at hlt <;> omega
  unfold setRealLength
  rw [if_neg hn]
  by_cases hlimited : m.nSizeLimit ≠ 0 ∧ m.nSizeLimit < n
  · have hsize : m.capped n = m.nSizeLimit := by
      rw [capped, if_neg hlimited.1, Nat.min_eq_right hlimited.2.le]
    rw [hsize] at hlt ⊢
    rw [if_pos hlimited, if_neg (Nat.ne_of_gt hlt)]
    exact resize_moves hm hlt
  · have hsize : m.capped n = n := by
      unfold capped
      split_ifs <;> omega
    rw [hsize] at hlt ⊢
    rw [if_neg hlimited]
    exact resize_moves hm hlt

end

end MemBuf

end MyServer
