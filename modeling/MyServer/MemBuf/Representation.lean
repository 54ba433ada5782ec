import MyServer.MemBuf.MemBuf
import MyServer.Lib.Safety

/-!
# What the calls on a `MemBuf` keep

A limit is obeyed while the buffer grows. The calls do not look for a limit that is below the capacity
already, nor for an argument that lies in the buffer itself.
-/

open MyServer.Safety

namespace MyServer.MemBuf

/-- How many bytes of an argument the limit allows. -/
def allowed (m : MemBuf) (size : Nat) : Nat := if m.nSizeLimit = 0 then size else min size (m.nSizeLimit - m.nSize)

/-- Its bytes are those of the buffer. -/
def Own (m : MemBuf) : Heap.Source Byte → Prop
  | .outside _ => False
  | .inside p _ _ => p = m.buffer ∧ p ≠ none

/-- The argument is still there when its first `n` bytes are copied to this offset, and it does not lie across them. -/
def Spared (m : MemBuf) (capacity offset n : Nat) (src : Heap.Source Byte) : Prop :=
  if m.nRealSize < capacity then m.bCanDelete = true → ¬m.Own src else ¬src.Overlaps m.buffer offset n

instance (m : MemBuf) (src : Heap.Source Byte) : Decidable (m.Own src) := by
  cases src <;> unfold Own <;> infer_instance

instance (m : MemBuf) (capacity offset n : Nat) (src : Heap.Source Byte) : Decidable (m.Spared capacity offset n src) := by
  unfold Spared
  infer_instance

section

variable {junk : Nat → Byte} {h h' : Heap Byte} {m : MemBuf} {b : Str} {k n size : Nat} {src : Heap.Source Byte}
  {text : Str}

theorem allowed_eq (hm : Represents h m) (size : Nat) : m.allowed size = m.capped (m.nSize + size) - m.nSize := by
  have hsize := hm.size_le
  have hlimit := hm.limit
  unfold allowed capped
  split_ifs with hzero
  · omega
  · omega

theorem allowed_le (m : MemBuf) (size : Nat) : m.allowed size ≤ size := by
  unfold allowed
  split_ifs
  · exact le_rfl
  · exact Nat.min_le_left _ _

theorem capped_le (m : MemBuf) (n : Nat) : m.capped n ≤ n := by
  unfold capped
  split_ifs
  · exact le_rfl
  · exact Nat.min_le_left _ _

/-! ## Writing to the block -/

theorem bytes_put (hb : h.block m.buffer = some b) (b' : Str) : m.bytes (h.put m.buffer (some b')) = b' := by
  rw [bytes, Heap.block_put hb, if_pos rfl]
  rfl

theorem Represents.put (hm : Represents h m) (hb : h.block m.buffer = some b) {b' : Str} (hlength : b'.length = b.length)
    (hk : k ≤ m.nRealSize) : Represents (h.put m.buffer (some b')) { m with nSize := k } where
  size_le := hk
  limit := hm.limit
  allocated a ha := by
    rw [Heap.block_put hb]
    split_ifs with heq
    · rfl
    · exact hm.allocated a ha
  fits := by
    have hfits := hm.fits
    rw [bytes, hb, Option.getD_some] at hfits
    have hbytes : MemBuf.bytes (h.put m.buffer (some b')) { m with nSize := k } = b' := bytes_put hb b'
    rw [hbytes, hlength]
    exact hfits

/-- A text is written behind what stays. -/
theorem memcpy_writes (hm : Represents h m) (hload : src.load h n = some text) (htext : text.length = n) (hpos : n ≠ 0)
    (hoverlap : ¬src.Overlaps m.buffer k n) (hroom : k + n ≤ m.nRealSize) :
    ∃ h', h.memcpy m.buffer k src n = some h' ∧ Represents h' { m with nSize := k + n } ∧
      { m with nSize := k + n }.content h' = (m.bytes h).take k ++ text := by
  have hb := hm.block (by omega)
  have hfits := hm.fits
  have hcopy := Heap.memcpy_eq hb hload htext (by omega) hoverlap hpos
  have hlength := @Heap.length_splice _ (m.bytes h) text k (by omega)
  refine ⟨_, hcopy, hm.put hb hlength hroom, ?_⟩
  have hbytes : MemBuf.bytes (h.put m.buffer (some (Heap.splice (m.bytes h) k text))) { m with nSize := k + n } =
    Heap.splice (m.bytes h) k text := bytes_put hb _
  rw [content, hbytes, ← htext, Heap.take_splice (by omega)]

/-! ## A block that moves -/

section

variable (hothers : ∀ p, p ≠ some h.length → h'.block p = if m.bCanDelete = true ∧ p = m.buffer then none else h.block p)

include hothers

/-- What could be read before can be read after, unless it was in the block that is given back. -/
theorem load_moved (hload : src.load h n = some text) (hpos : n ≠ 0) (hspared : m.bCanDelete = true → ¬m.Own src) :
    src.load h' n = some text ∧ ¬src.Overlaps (some h.length) k n := by
  cases src with
  | outside bytes => exact ⟨hload, id⟩
  | inside p offset size' =>
    have hlive : h.block p ≠ none := by
      intro hnone
      rw [Heap.Source.load_inside, if_neg hpos, hnone] at hload
      cases hload
    have hne : p ≠ some h.length := by
      obtain ⟨b, hb⟩ := Option.ne_none_iff_exists'.mp hlive
      exact Heap.ne_fresh hb
    refine ⟨?_, fun hover => hne hover.1⟩
    have hkept : h'.block p = h.block p := by
      rw [hothers p hne, if_neg]
      rintro ⟨hdelete, rfl⟩
      refine hspared hdelete ⟨rfl, fun hnull => hlive ?_⟩
      rw [hnull]
      rfl
    rw [← hload]
    refine Heap.load_congr fun q _ _ hq => ?_
    cases hq
    exact hkept

theorem load_own (hm : Represents h m) (hpos : n ≠ 0) (hdelete : m.bCanDelete = true) (hown : m.Own src) :
    src.load h' n = none := by
  cases src with
  | outside bytes => exact hown.elim
  | inside p offset size' =>
    obtain ⟨rfl, hne⟩ := hown
    obtain ⟨a, ha⟩ := Option.ne_none_iff_exists'.mp hne
    obtain ⟨b, hb⟩ := Option.isSome_iff_exists.mp (hm.allocated a ha)
    rw [← ha] at hb
    have hgone : h'.block m.buffer = none := by
      rw [hothers _ (Heap.ne_fresh hb), if_pos ⟨hdelete, rfl⟩]
    rw [Heap.Source.load_inside, if_neg hpos, hgone]
    rfl

end

/-! ## `addBuffer` -/

theorem grow_stays (hm : Represents h m) (hstays : m.capped (m.nSize + size) ≤ m.nRealSize) :
    m.grow junk size h = some (h, m) := by
  have hreq : ∀ n, m.nRealSize < m.nSize + size → m.setRealLength junk n h = some (h, m) := by
    intro n hlt
    refine setRealLength_of_capped_le hm ?_
    unfold capped at hstays ⊢
    split_ifs at hstays ⊢ with hzero
    · omega
    · omega
  unfold grow
  split_ifs with hlt
  · exact hreq _ hlt
  · exact hreq _ hlt
  · rfl

theorem grow_moves (hm : Represents h m) (hmoves : m.nRealSize < m.capped (m.nSize + size)) :
    ∃ h' n, m.grow junk size h = some (h', m.moved h n) ∧ Moved h m n h' ∧ Represents h' (m.moved h n) ∧
      m.capped (m.nSize + size) ≤ n := by
  have hgrow : ∃ n, m.grow junk size h = m.setRealLength junk n h ∧ m.capped (m.nSize + size) ≤ m.capped n := by
    have hlt := lt_of_lt_of_le hmoves (m.capped_le _)
    unfold grow
    rw [if_pos hlt]
    split_ifs with hblock
    · refine ⟨_, rfl, ?_⟩
      unfold capped
      split_ifs <;> omega
    · exact ⟨_, rfl, le_rfl⟩
  obtain ⟨n, hgrow, hle⟩ := hgrow
  obtain ⟨h', hcall, hmoved⟩ := setRealLength_moves hm (lt_of_lt_of_le hmoves hle)
  refine ⟨h', m.capped n, hgrow.trans hcall, hmoved, hmoved.represents hm (by omega) ?_, hle⟩
  unfold capped
  split_ifs with hzero
  · exact Or.inl hzero
  · exact Or.inr (Nat.min_le_right _ _)

/-- The copy writes what is allowed. -/
theorem append_eq (hm : Represents h m) (hroom : m.capped (m.nSize + src.size) ≤ m.nRealSize)
    (hpos : m.allowed src.size ≠ 0) :
    m.append src h = (h.memcpy m.buffer m.nSize src (m.allowed src.size)).map fun h =>
      (h, { m with nSize := m.nSize + m.allowed src.size }) := by
  have hlimit := hm.limit
  have hsize := hm.size_le
  rw [allowed_eq hm] at hpos ⊢
  unfold append
  rw [if_neg (by omega)]
  split_ifs with hfull
  · have hn : m.capped (m.nSize + src.size) - m.nSize = m.nRealSize - m.nSize := by
      unfold capped at hroom ⊢
      split_ifs at hroom ⊢ with hzero
      · omega
      · omega
    rw [hn, Nat.add_sub_cancel' hsize]
  · have hn : m.capped (m.nSize + src.size) - m.nSize = src.size := by
      unfold capped
      split_ifs with hzero
      · omega
      · omega
    rw [hn]

theorem addBuffer_zero (hm : Represents h m) (hzero : m.allowed src.size = 0) :
    m.addBuffer junk src h = some (h, m) := by
  unfold addBuffer
  split_ifs with hsize
  · rfl
  · have hallowed := hzero
    rw [allowed_eq hm] at hallowed
    have hnSize := hm.size_le
    rw [grow_stays hm (by omega), Option.bind_some]
    unfold allowed at hzero
    split_ifs at hzero with hlimit
    · exact absurd hzero hsize
    · have hle := hm.limit.resolve_left hlimit
      have hfull : m.nRealSize - m.nSize = 0 := by omega
      exact if_pos hfull

/-- **What `addBuffer` appends.** -/
theorem addBuffer_appends (hm : Represents h m) (hload : src.load h src.size = some text)
    (hspared : m.Spared (m.capped (m.nSize + src.size)) m.nSize (m.allowed src.size) src) (hpos : m.allowed src.size ≠ 0) :
    ∃ h' m', m.addBuffer junk src h = some (h', m') ∧ Represents h' m' ∧
      m'.content h' = m.content h ++ text.take (m.allowed src.size) ∧
      m'.nSize = m.nSize + m.allowed src.size ∧ m'.nSizeLimit = m.nSizeLimit ∧ m'.bCanDelete = m.bCanDelete := by
  have hle := m.allowed_le src.size
  have hprefix := Heap.load_take hload hle
  have htext : (text.take (m.allowed src.size)).length = m.allowed src.size :=
    List.length_take_of_le (by rw [Heap.load_length hload]; exact hle)
  rw [addBuffer, if_neg (by omega)]
  unfold Spared at hspared
  split_ifs at hspared with hmoves
  · obtain ⟨h₁, n, hgrow, hmoved, hm₁, hn⟩ := @grow_moves junk h m src.size hm hmoves
    obtain ⟨hload₁, hoverlap⟩ := @load_moved h h₁ m m.nSize (m.allowed src.size) src _ hmoved.others hprefix hpos hspared
    have hroom : m.nSize + m.allowed src.size ≤ n := by
      rw [allowed_eq hm] at hpos ⊢
      omega
    obtain ⟨h', hcopy, hm', hcontent⟩ := memcpy_writes hm₁ hload₁ htext hpos hoverlap hroom
    have happend := append_eq hm₁ hn hpos
    refine ⟨h', _, ?_, hm', ?_, rfl, rfl, rfl⟩
    · rw [hgrow, Option.bind_some, happend]
      exact congrArg (Option.map _) hcopy
    · rw [← hmoved.content_eq hm]
      exact hcontent
  · have hroom := Nat.le_of_not_lt hmoves
    have hfits : m.nSize + m.allowed src.size ≤ m.nRealSize := by
      rw [allowed_eq hm] at hpos ⊢
      omega
    obtain ⟨h', hcopy, hm', hcontent⟩ := memcpy_writes hm hprefix htext hpos hspared hfits
    refine ⟨h', _, ?_, hm', hcontent, rfl, rfl, rfl⟩
    rw [grow_stays hm hroom, Option.bind_some, append_eq hm hroom hpos, hcopy]
    rfl

/-- As much of a text as the limit allows. -/
def cut (m : MemBuf) (text : Str) : Str := if m.nSizeLimit = 0 then text else text.take m.nSizeLimit

/-- A text that lies elsewhere. -/
theorem addBuffer_outside (hm : Represents h m) (text : Str) :
    ∃ h' m', m.addBuffer junk (.outside text) h = some (h', m') ∧ Represents h' m' ∧
      m'.content h' = m.cut (m.content h ++ text) ∧ m'.nSizeLimit = m.nSizeLimit := by
  have hlength := hm.content_length
  have hlimit := hm.limit
  have hsize := hm.size_le
  have hcut : m.cut (m.content h ++ text) = m.content h ++ text.take (m.allowed text.length) := by
    unfold cut allowed
    split_ifs with hzero
    · rw [List.take_length]
    · rw [List.take_append, hlength, List.take_of_length_le (by omega), List.take_eq_take_min,
        Nat.min_comm]
  have hload : (Heap.Source.outside text).load h (Heap.Source.outside text).size = some text := by
    exact congrArg some List.take_length
  by_cases hzero : m.allowed text.length = 0
  · refine ⟨h, m, addBuffer_zero hm hzero, hm, ?_, rfl⟩
    rw [hcut, hzero, List.take_zero, List.append_nil]
  · have hspared : m.Spared (m.capped (m.nSize + text.length)) m.nSize (m.allowed text.length) (.outside text) := by
      unfold Spared
      split_ifs
      · exact fun _ hown => hown
      · exact fun hover => hover
    obtain ⟨h', m', hcall, hm', hcontent, -, hlimit', -⟩ := @addBuffer_appends junk h m _ _ hm hload hspared hzero
    exact ⟨h', m', hcall, hm', hcontent.trans hcut.symm, hlimit'⟩

/-- An argument that is not spared. -/
theorem addBuffer_fails (hm : Represents h m)
    (hspared : ¬m.Spared (m.capped (m.nSize + src.size)) m.nSize (m.allowed src.size) src) (hpos : m.allowed src.size ≠ 0) :
    m.addBuffer junk src h = none := by
  have hle := m.allowed_le src.size
  rw [addBuffer, if_neg (by omega)]
  unfold Spared at hspared
  split_ifs at hspared with hmoves
  · obtain ⟨h₁, n, hgrow, hmoved, hm₁, hn⟩ := @grow_moves junk h m src.size hm hmoves
    obtain ⟨hdelete, hown⟩ := not_forall.mp hspared
    have hgone := load_own hmoved.others hm hpos hdelete (not_not.mp hown)
    have happend := append_eq hm₁ hn hpos
    rw [hgrow, Option.bind_some, happend, Option.map_eq_none_iff]
    by_contra hcopy
    exact (Heap.memcpy_ne_none hcopy hpos).2 hgone
  · have hroom := Nat.le_of_not_lt hmoves
    rw [grow_stays hm hroom, Option.bind_some, append_eq hm hroom hpos, Option.map_eq_none_iff]
    by_contra hcopy
    exact (Heap.memcpy_ne_none hcopy hpos).1 (not_not.mp hspared)

/-! ## `setBuffer` -/

theorem setBuffer_stays (hm : Represents h m) (hstays : m.capped src.size ≤ m.nRealSize) :
    m.setBuffer junk src h =
      (h.memcpy m.buffer 0 src (m.capped src.size)).map fun h => (h, { m with nSize := m.capped src.size }) := by
  have hlimit := hm.limit
  unfold setBuffer
  by_cases hle : src.size ≤ m.nRealSize
  · have hn : m.capped src.size = src.size := by
      unfold capped
      split_ifs <;> omega
    rw [if_pos hle, hn]
  · have hn : m.capped src.size = m.nRealSize ∧ m.nSizeLimit = m.nRealSize ∧ m.nRealSize ≠ 0 := by
      unfold capped at hstays ⊢
      split_ifs at hstays ⊢ <;> omega
    have hnull : m.buffer ≠ none := by
      intro hnull
      have hfits := hm.fits
      rw [bytes, hnull] at hfits
      exact hn.2.2 (Nat.le_zero.mp hfits)
    have hsize : (if m.nSizeLimit ≠ 0 ∧ m.nSizeLimit < src.size then m.nSizeLimit else src.size) = m.nRealSize := by
      rw [if_pos (by omega), hn.2.1]
    have halloc : ¬(m.nRealSize < m.nRealSize ∨ m.buffer = none) := by
      rintro (hlt | hnone)
      · exact Nat.lt_irrefl _ hlt
      · exact hnull hnone
    rw [if_neg hle, hn.1]
    dsimp only
    rw [hsize, allocBuffer, if_neg halloc]
    rfl

theorem setBuffer_moves (hm : Represents h m) (hmoves : m.nRealSize < m.capped src.size) :
    ∃ (h₁ : Heap Byte) (b : Str), h₁.block (some h.length) = some b ∧ b.length = m.capped src.size ∧
      (∀ p, p ≠ some h.length → h₁.block p = if m.bCanDelete = true ∧ p = m.buffer then none else h.block p) ∧
      m.setBuffer junk src h = (h₁.memcpy (some h.length) 0 src (m.capped src.size)).map fun h' =>
        (h', { m.moved h (m.capped src.size) with nSize := m.capped src.size }) := by
  have hsize : (if m.nSizeLimit ≠ 0 ∧ m.nSizeLimit < src.size then m.nSizeLimit else src.size) = m.capped src.size := by
    unfold capped
    split_ifs <;> omega
  obtain ⟨h₁, k, b, hcall, -, hb, hlength, hothers⟩ := @allocBuffer_fresh junk h m _ hm hmoves
  refine ⟨h₁, b, hb, hlength, hothers, ?_⟩
  have hlt := lt_of_lt_of_le hmoves (m.capped_le _)
  unfold setBuffer
  rw [if_neg (Nat.not_le.mpr hlt)]
  dsimp only
  rw [hsize, hcall]
  rfl

theorem represents_fresh (hb : h'.block (some h.length) = some b) (hlength : b.length = n)
    (hlimit : m.nSizeLimit = 0 ∨ n ≤ m.nSizeLimit) : Represents h' { m.moved h n with nSize := n } where
  size_le := le_rfl
  limit := hlimit
  allocated a ha := by
    cases ha
    rw [hb]
    rfl
  fits := by
    have hbytes : MemBuf.bytes h' { m.moved h n with nSize := n } = b := by
      rw [bytes]
      exact congrArg (Option.getD · []) hb
    rw [hbytes, hlength]
    exact le_rfl

/-- **What `setBuffer` leaves.** -/
theorem setBuffer_sets (hm : Represents h m) (hload : src.load h src.size = some text)
    (hspared : m.capped src.size = 0 ∨ m.Spared (m.capped src.size) 0 (m.capped src.size) src) :
    ∃ h' m', m.setBuffer junk src h = some (h', m') ∧ Represents h' m' ∧ m'.content h' = text.take (m.capped src.size) ∧
      m'.nSize = m.capped src.size ∧ m'.nSizeLimit = m.nSizeLimit := by
  have hle := m.capped_le src.size
  have hprefix := Heap.load_take hload hle
  have htext : (text.take (m.capped src.size)).length = m.capped src.size :=
    List.length_take_of_le (by rw [Heap.load_length hload]; exact hle)
  by_cases hzero : m.capped src.size = 0
  · refine ⟨h, { m with nSize := 0 }, ?_, ⟨Nat.zero_le _, hm.limit, hm.allocated, hm.fits⟩, ?_, hzero.symm, rfl⟩
    · rw [setBuffer_stays hm (by omega), hzero, Heap.memcpy_zero]
      rfl
    · rw [hzero, List.take_zero]
      exact List.take_zero
  have hspared := hspared.resolve_left hzero
  unfold Spared at hspared
  split_ifs at hspared with hmoves
  · obtain ⟨h₁, b, hb, hlength, hothers, hcall⟩ := @setBuffer_moves junk h m src hm hmoves
    obtain ⟨hload₁, hoverlap⟩ := @load_moved h h₁ m 0 _ src _ hothers hprefix hzero hspared
    have hcopy := Heap.memcpy_eq hb hload₁ htext (by omega) hoverlap hzero
    have hspliced := @Heap.length_splice _ b (text.take (m.capped src.size)) 0 (by omega)
    have htake := @Heap.take_splice _ b (text.take (m.capped src.size)) 0 (Nat.zero_le _)
    rw [Nat.zero_add, htext, List.take_zero, List.nil_append] at htake
    have hblock := (Heap.block_put hb (some (Heap.splice b 0 (text.take (m.capped src.size)))) (some h.length)).trans
      (if_pos rfl)
    refine ⟨_, _, by rw [hcall, hcopy]; rfl, represents_fresh hblock (hspliced.trans hlength) ?_, ?_, rfl, rfl⟩
    · unfold capped
      split_ifs with hlimit
      · exact Or.inl hlimit
      · exact Or.inr (Nat.min_le_right _ _)
    · rw [content, bytes]
      exact (congrArg (fun o => (Option.getD o []).take (m.capped src.size)) hblock).trans htake
  · have hroom := Nat.le_of_not_lt hmoves
    obtain ⟨h', hcopy, hm', hcontent⟩ := @memcpy_writes h m 0 _ src _ hm hprefix htext hzero hspared (by omega)
    rw [Nat.zero_add] at hm' hcontent
    rw [List.take_zero, List.nil_append] at hcontent
    refine ⟨h', _, ?_, hm', hcontent, rfl, rfl⟩
    rw [setBuffer_stays hm hroom, hcopy]
    rfl

theorem setBuffer_fails (hm : Represents h m) (hpos : m.capped src.size ≠ 0)
    (hspared : ¬m.Spared (m.capped src.size) 0 (m.capped src.size) src) : m.setBuffer junk src h = none := by
  unfold Spared at hspared
  split_ifs at hspared with hmoves
  · obtain ⟨h₁, b, -, -, hothers, hcall⟩ := @setBuffer_moves junk h m src hm hmoves
    obtain ⟨hdelete, hown⟩ := not_forall.mp hspared
    have hgone := load_own hothers hm hpos hdelete (not_not.mp hown)
    rw [hcall, Option.map_eq_none_iff]
    by_contra hcopy
    exact (Heap.memcpy_ne_none hcopy hpos).2 hgone
  · rw [setBuffer_stays hm (Nat.le_of_not_lt hmoves), Option.map_eq_none_iff]
    by_contra hcopy
    exact (Heap.memcpy_ne_none hcopy hpos).1 (not_not.mp hspared)

end

end MyServer.MemBuf
