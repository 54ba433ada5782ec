import MyServer.MemBuf.Calls

/-!
# Copies of a `MemBuf`

The constructor shares the bytes. `operator=` takes the capacity for the length.
-/

namespace MyServer.MemBuf

/-- `MemBuf::MemBuf (const MemBuf&)`. A buffer that is returned by value is copied the same way. -/
def copy (srcBuf : MemBuf) : MemBuf := { srcBuf with nSizeLimit := 0, bCanDelete := false }

/-- What is copied of a buffer. -/
def whole (m : MemBuf) : Heap.Source Byte := .inside m.buffer 0 m.nSize

section

variable (junk : Nat → Byte) (h : Heap Byte)

/-- `MemBuf::MemBuf (MemBuf&, int)`. -/
def copyBytes (srcBuf : MemBuf) : Option (Heap Byte × MemBuf) := new.setBuffer junk srcBuf.whole h

/-- `operator=` from a `MemBuf`. -/
def assign (src m : MemBuf) : Option (Heap Byte × MemBuf) :=
  m.setBuffer junk (.inside src.buffer 0 src.nRealSize) h

def getPart (nStart nEnd : Nat) (result m : MemBuf) : Option (Heap Byte × MemBuf) :=
  let nEnd := if m.nSize < nEnd then m.nSize else nEnd
  if nStart = nEnd then some (h, { result with nSize := 0 })
  else
    -- A `size_t`.
    let size := if nStart ≤ nEnd then nEnd - nStart else nEnd + 2 ^ 64 - nStart
    result.setBuffer junk (.inside m.buffer nStart size) h

/-- `addBuffer (MemBuf *)`, `operator+=` and `operator<<`. -/
def addMemBuf (nmb m : MemBuf) : Option (Heap Byte × MemBuf) := m.addBuffer junk nmb.whole h

/-- `operator+`. -/
def plus (src m : MemBuf) : Option (Heap Byte × MemBuf) := addMemBuf junk h src m.copy

end

/-! ## What copies are right -/

/-- The call leaves a buffer with this text and its length. -/
def Holds (text : Str) (r : Option (Heap Byte × MemBuf)) : Prop :=
  ∃ h' m', r = some (h', m') ∧ m'.nSize = text.length ∧ m'.content h' = text

/-- Every way to copy `b` gives what it holds: into a new buffer, over the buffer `d` and to the end of an empty buffer
`e`. `operator+` with `c` gives both texts. -/
structure Copied (junk : Nat → Byte) (h : Heap Byte) (b d e c : MemBuf) : Prop where
  constructed : Holds (b.content h) (some (h, b.copy))
  constructedBytes : Holds (b.content h) (copyBytes junk h b)
  assigned : Holds (b.content h) (assign junk h b d)
  part : ∀ nEnd, b.nSize ≤ nEnd → Holds (b.content h) (getPart junk h 0 nEnd d b)
  appended : Holds (b.content h) (addMemBuf junk h b e)
  added : Holds (b.content h ++ c.content h) (plus junk h c b)

/-- To take so many bytes the buffer gives the bytes of `b` back. -/
def Frees (m : MemBuf) (n : Nat) (b : MemBuf) : Prop :=
  m.nRealSize < m.capped n ∧ m.bCanDelete = true ∧ b.buffer = m.buffer ∧ m.buffer ≠ none

/-- The bytes of `c` are those of `b`, and there is room for those that are added where they are read. -/
def Straddles (b c : MemBuf) : Prop :=
  c.buffer = b.buffer ∧ b.nSize ≠ 0 ∧ b.nSize < c.nSize ∧ b.nSize + c.nSize ≤ b.nRealSize

instance (b c : MemBuf) : Decidable (Straddles b c) := by
  unfold Straddles
  infer_instance

/-- As many bytes as `b` has room for are as many as it holds, or the limit of `d` makes it so. -/
structure Copyable (b d e c : MemBuf) : Prop where
  full : d.capped b.nRealSize = b.nSize
  assigned : ¬d.Frees b.nRealSize b
  room : e.capped b.nSize = b.nSize
  appended : ¬e.Frees b.nSize b
  added : ¬Straddles b c

section

variable {junk : Nat → Byte} {h : Heap Byte} {b c d e m : MemBuf} {n : Nat} {src : Heap.Source Byte} {text t : Str}

theorem holds_content (hm : Represents h m) : Holds (m.content h) (some (h, m)) :=
  ⟨h, m, rfl, hm.content_length.symm, rfl⟩

theorem holds_setBuffer_iff (hm : Represents h m) (hload : src.load h src.size = some text) :
    Holds t (m.setBuffer junk src h) ↔ text.take (m.capped src.size) = t ∧
      (m.capped src.size = 0 ∨ m.Spared (m.capped src.size) 0 (m.capped src.size) src) := by
  constructor
  · rintro ⟨h', m', hcall, -, hcontent⟩
    have hspared : m.capped src.size = 0 ∨ m.Spared (m.capped src.size) 0 (m.capped src.size) src := by
      by_contra hnot
      rw [not_or] at hnot
      exact Option.some_ne_none _ (hcall.symm.trans (setBuffer_fails hm hnot.1 hnot.2))
    obtain ⟨h₁, m₁, hcall₁, -, hcontent₁, -⟩ := @setBuffer_sets junk _ _ _ _ hm hload hspared
    cases hcall.symm.trans hcall₁
    exact ⟨hcontent₁.symm.trans hcontent, hspared⟩
  · rintro ⟨rfl, hspared⟩
    obtain ⟨h', m', hcall, hm', hcontent, hsize, -⟩ := @setBuffer_sets junk _ _ _ _ hm hload hspared
    refine ⟨h', m', hcall, ?_, hcontent⟩
    rw [← hcontent, hm'.content_length]

theorem holds_addBuffer_iff (hm : Represents h m) (hload : src.load h src.size = some text) :
    Holds t (m.addBuffer junk src h) ↔ m.content h ++ text.take (m.allowed src.size) = t ∧
      (m.allowed src.size = 0 ∨ m.Spared (m.capped (m.nSize + src.size)) m.nSize (m.allowed src.size) src) := by
  by_cases hzero : m.allowed src.size = 0
  · rw [addBuffer_zero hm hzero, hzero, List.take_zero, List.append_nil]
    constructor
    · rintro ⟨h', m', heq, -, hcontent⟩
      cases heq
      exact ⟨hcontent, Or.inl rfl⟩
    · rintro ⟨rfl, -⟩
      exact holds_content hm
  rw [or_iff_right hzero]
  constructor
  · rintro ⟨h', m', hcall, -, hcontent⟩
    have hspared : m.Spared (m.capped (m.nSize + src.size)) m.nSize (m.allowed src.size) src := by
      by_contra hnot
      exact Option.some_ne_none _ (hcall.symm.trans (addBuffer_fails hm hnot hzero))
    obtain ⟨h₁, m₁, hcall₁, -, hcontent₁, -⟩ := @addBuffer_appends junk _ _ _ _ hm hload hspared hzero
    cases hcall.symm.trans hcall₁
    exact ⟨hcontent₁.symm.trans hcontent, hspared⟩
  · rintro ⟨rfl, hspared⟩
    obtain ⟨h', m', hcall, hm', hcontent, -⟩ := @addBuffer_appends junk _ _ _ _ hm hload hspared hzero
    refine ⟨h', m', hcall, ?_, hcontent⟩
    rw [← hcontent, hm'.content_length]

theorem load_bytes (hb : Represents h b) (hn : n ≤ b.nRealSize) :
    (Heap.Source.inside b.buffer 0 n).load h (Heap.Source.inside b.buffer 0 n : Heap.Source Byte).size =
      some ((b.bytes h).take n) := by
  change (Heap.Source.inside b.buffer 0 n).load h n = _
  rw [Heap.Source.load_inside]
  split_ifs with hzero
  · rw [hzero, List.take_zero]
  · rw [hb.block (by omega), Option.bind_some, Nat.zero_add, if_pos (hn.trans hb.fits), List.drop_zero]

theorem load_whole (hb : Represents h b) : b.whole.load h b.whole.size = some (b.content h) := load_bytes hb hb.size_le

theorem spared_front_iff (size : Nat) :
    (m.capped n = 0 ∨ m.Spared (m.capped n) 0 (m.capped n) (.inside b.buffer 0 size)) ↔ ¬m.Frees n b := by
  unfold Spared Frees Own Heap.Source.Overlaps
  split_ifs with hmoves
  · have hpos : m.capped n ≠ 0 := by omega
    rw [or_iff_right hpos]
    simp only [hmoves, true_and, not_and]
    exact ⟨fun hspared hdelete hown hnull => hspared hdelete hown (hown ▸ hnull),
      fun hspared hdelete hown hnull => hspared hdelete hown (hown ▸ hnull)⟩
  · simp [hmoves]

theorem assign_iff (hb : Represents h b) (hd : Represents h d) :
    Holds (b.content h) (assign junk h b d) ↔ d.capped b.nRealSize = b.nSize ∧ ¬d.Frees b.nRealSize b := by
  unfold assign
  rw [holds_setBuffer_iff hd (load_bytes hb le_rfl)]
  refine and_congr ?_ (spared_front_iff _)
  have hle := d.capped_le b.nRealSize
  have hfits := hb.fits
  have hsize := hb.size_le
  unfold Heap.Source.size content
  rw [List.take_take, Nat.min_eq_left hle]
  constructor
  · intro htake
    have hlength := congrArg List.length htake
    rw [List.length_take_of_le (by omega), List.length_take_of_le (by omega)] at hlength
    exact hlength
  · intro hcapped
    rw [hcapped]

theorem holds_set_whole (hb : Represents h b) (hm : Represents h m) (hroom : m.capped b.nSize = b.nSize)
    (hfrees : ¬m.Frees b.nSize b) : Holds (b.content h) (m.setBuffer junk b.whole h) := by
  refine (holds_setBuffer_iff hm (load_whole hb)).mpr ⟨?_, (spared_front_iff _).mpr hfrees⟩
  have hcapped : m.capped b.whole.size = (b.content h).length := hroom.trans hb.content_length.symm
  rw [hcapped, List.take_length]

theorem getPart_whole (hb : Represents h b) (hd : Represents h d) (hroom : d.capped b.nSize = b.nSize)
    (hfrees : ¬d.Frees b.nSize b) {nEnd : Nat} (hend : b.nSize ≤ nEnd) :
    Holds (b.content h) (getPart junk h 0 nEnd d b) := by
  have hn : (if b.nSize < nEnd then b.nSize else nEnd) = b.nSize := by
    split_ifs <;> omega
  unfold getPart
  dsimp only
  rw [hn, if_pos (Nat.zero_le _)]
  split_ifs with hzero
  · refine ⟨h, _, rfl, ?_, ?_⟩
    · rw [hb.content_length, ← hzero]
    · unfold content
      rw [← hzero, List.take_zero, List.take_zero]
  · exact holds_set_whole hb hd hroom hfrees

theorem append_iff (hb : Represents h b) (he : Represents h e) (hempty : e.nSize = 0) :
    Holds (b.content h) (addMemBuf junk h b e) ↔ e.capped b.nSize = b.nSize ∧ ¬e.Frees b.nSize b := by
  unfold addMemBuf
  rw [holds_addBuffer_iff he (load_whole hb)]
  have hallowed : e.allowed b.whole.size = e.capped b.nSize := by
    rw [allowed_eq he, hempty, Nat.zero_add, Nat.sub_zero]
    rfl
  have hnil : e.content h = [] := by
    rw [content, hempty, List.take_zero]
  rw [hallowed, hnil, hempty, List.nil_append, Nat.zero_add]
  refine and_congr ?_ (spared_front_iff _)
  have hle := e.capped_le b.nSize
  have hlength := hb.content_length
  constructor
  · intro htake
    have hcapped := congrArg List.length htake
    rw [List.length_take_of_le (by omega), hlength] at hcapped
    exact hcapped
  · intro hcapped
    rw [hcapped, ← hlength, List.take_length]

theorem Represents.copy (hb : Represents h b) : Represents h b.copy := ⟨hb.size_le, Or.inl rfl, hb.allocated, hb.fits⟩

theorem plus_iff (hb : Represents h b) (hc : Represents h c) :
    Holds (b.content h ++ c.content h) (plus junk h c b) ↔ ¬Straddles b c := by
  unfold plus addMemBuf
  rw [holds_addBuffer_iff hb.copy (load_whole hc)]
  have htake : (c.content h).take (b.copy.allowed c.whole.size) = c.content h :=
    List.take_of_length_le hc.content_length.le
  have hcontent : b.copy.content h = b.content h := rfl
  rw [htake, hcontent, and_iff_right rfl]
  have hsize := hb.size_le
  change c.nSize = 0 ∨ b.copy.Spared (b.nSize + c.nSize) b.nSize c.nSize c.whole ↔ _
  unfold Spared Straddles whole Heap.Source.Overlaps copy
  dsimp only
  split_ifs with hmoves
  · refine iff_of_true (Or.inr False.elim) ?_
    rintro ⟨-, -, -, hroom⟩
    omega
  · constructor
    · rintro (hzero | hapart) ⟨hshared, hne, hlt, -⟩
      · omega
      · exact hapart ⟨hshared, hne.symm, by omega, by omega⟩
    · intro hstraddles
      rw [or_iff_not_imp_left]
      rintro hzero ⟨hshared, hne, hlt, hlt'⟩
      exact hstraddles ⟨hshared, hne.symm, by omega, by omega⟩

/-- **The copies that are right.** -/
theorem copied_iff (junk : Nat → Byte) (h : Heap Byte) (b d e c : MemBuf) (hb : Represents h b) (hd : Represents h d)
    (he : Represents h e) (hc : Represents h c) (hempty : e.nSize = 0) :
    Copied junk h b d e c ↔ Copyable b d e c := by
  constructor
  · intro hcopied
    obtain ⟨hfull, hassigned⟩ := (assign_iff hb hd).mp hcopied.assigned
    obtain ⟨hroom, happended⟩ := (append_iff hb he hempty).mp hcopied.appended
    exact ⟨hfull, hassigned, hroom, happended, (plus_iff hb hc).mp hcopied.added⟩
  · rintro ⟨hfull, hassigned, hroom, happended, hadded⟩
    have hd' : d.capped b.nSize = b.nSize := by
      have hsize := hb.size_le
      unfold capped at hfull ⊢
      split_ifs at hfull ⊢ <;> omega
    have hfrees : ¬d.Frees b.nSize b := by
      unfold Frees at hassigned ⊢
      rwa [hd', ← hfull]
    have hnew : ¬new.Frees b.nSize b := fun hfrees => hfrees.2.2.2 rfl
    exact
      { constructed := holds_content hb.copy
        constructedBytes := holds_set_whole hb (represents_new h) rfl hnew
        assigned := (assign_iff hb hd).mpr ⟨hfull, hassigned⟩
        part := fun nEnd hend => getPart_whole hb hd hd' hfrees hend
        appended := (append_iff hb he hempty).mpr ⟨hroom, happended⟩
        added := (plus_iff hb hc).mpr hadded }

end

theorem copied_full : Copied (fun _ => 0) [some (ascii "ab")] ⟨some 0, 2, 2, 0, 1024, true⟩ new new new := by
  refine (copied_iff _ _ _ _ _ _ (represents_block le_rfl) (represents_new _) (represents_new _) (represents_new _) rfl).mpr ?_
  have hnull : ∀ n, ¬new.Frees n ⟨some 0, 2, 2, 0, 1024, true⟩ := fun n hfrees => hfrees.2.2.2 rfl
  exact ⟨by decide, hnull _, by decide, hnull _, by decide⟩

/-- `operator=` gives a buffer of one byte the length two. -/
theorem shortened_lengthens : ¬∀ (junk : Nat → Byte) (h : Heap Byte) (b d e c : MemBuf), Represents h b → Represents h d →
    Represents h e → Represents h c → e.nSize = 0 → Copied junk h b d e c := by
  intro hall
  have hshort : Represents [some (ascii "ab")] ⟨some 0, 1, 2, 0, 1024, true⟩ := represents_block (by decide)
  have hnew := represents_new [some (ascii "ab")]
  obtain ⟨h', m', hcall, hsize, -⟩ := (hall (fun _ => 0) _ _ new new new hshort hnew hnew hnew rfl).assigned
  have hlength : (assign (fun _ => 0) [some (ascii "ab")] ⟨some 0, 1, 2, 0, 1024, true⟩ new).map (fun r => r.2.nSize) =
      some 1 := by
    rw [hcall, Option.map_some, hsize]
    rfl
  exact absurd hlength (by decide)

end MyServer.MemBuf
