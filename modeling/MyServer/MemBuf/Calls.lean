import MyServer.MemBuf.Representation

/-!
# Sequences of calls on a `MemBuf`
-/

open MyServer.Safety

namespace MyServer.MemBuf

inductive Call where
  | addBuffer (src : Heap.Source Byte)
  | setBuffer (src : Heap.Source Byte)
  | setLength (newSize : Nat)
  | setRealLength (newSize : Nat)
  | setSizeLimit (newSize : Nat)

section

variable (junk : Nat → Byte)

def exec (s : Heap Byte × MemBuf) : Call → Option (Heap Byte × MemBuf)
  | .addBuffer src => s.2.addBuffer junk src s.1
  | .setBuffer src => s.2.setBuffer junk src s.1
  | .setLength newSize => s.2.setLength junk newSize s.1
  | .setRealLength newSize => s.2.setRealLength junk newSize s.1
  | .setSizeLimit newSize => some (s.1, s.2.setSizeLimit newSize)

/-- The call writes to blocks that are there only and leaves a buffer that is represented; `addBuffer` puts as
much of its argument as the limit allows behind what was there. -/
def Right (s : Heap Byte × MemBuf) (c : Call) : Prop :=
  ∃ s', exec junk s c = some s' ∧ Represents s'.1 s'.2 ∧
    match c with
    | .addBuffer src => ∃ text, src.load s.1 src.size = some text ∧
        s'.2.content s'.1 = s.2.content s.1 ++ text.take (s.2.allowed src.size)
    | .setBuffer src => (src.load s.1 src.size).isSome
    | _ => True

end

/-- An argument can be read and is spared, and a limit is not below the capacity. -/
def Admits (s : Heap Byte × MemBuf) : Call → Prop
  | .addBuffer src => (src.load s.1 src.size).isSome ∧ (s.2.allowed src.size = 0 ∨
      s.2.Spared (s.2.capped (s.2.nSize + src.size)) s.2.nSize (s.2.allowed src.size) src)
  | .setBuffer src => (src.load s.1 src.size).isSome ∧
      (s.2.capped src.size = 0 ∨ s.2.Spared (s.2.capped src.size) 0 (s.2.capped src.size) src)
  | .setLength _ => True
  | .setRealLength _ => True
  | .setSizeLimit newSize => newSize = 0 ∨ s.2.nRealSize ≤ newSize

instance (s : Heap Byte × MemBuf) (c : Call) : Decidable (Admits s c) := by
  cases c <;> unfold Admits <;> infer_instance

section

variable {junk : Nat → Byte} {h : Heap Byte} {m : MemBuf} {n : Nat} {s : Heap Byte × MemBuf} {c : Call}

/-- **What `setRealLength` leaves.** -/
theorem setRealLength_spec (hm : Represents h m) :
    ∃ h' m', m.setRealLength junk n h = some (h', m') ∧ Represents h' m' ∧ m'.content h' = m.content h ∧
      m'.nSize = m.nSize ∧ m.capped n ≤ m'.nRealSize ∧ m'.nSizeLimit = m.nSizeLimit ∧ m'.bCanDelete = m.bCanDelete := by
  rcases Nat.lt_or_ge m.nRealSize (m.capped n) with hlt | hle
  · obtain ⟨h', hcall, hmoved⟩ := @setRealLength_moves junk h m n hm hlt
    refine ⟨h', _, hcall, hmoved.represents hm hlt.le ?_, hmoved.content_eq hm, rfl, le_rfl, rfl, rfl⟩
    unfold capped
    split_ifs with hzero
    · exact Or.inl hzero
    · exact Or.inr (Nat.min_le_right _ _)
  · exact ⟨h, m, setRealLength_of_capped_le hm hle, hm, rfl, rfl, hle, rfl, rfl⟩

theorem Represents.setLength (hm : Represents h m) (hn : n ≤ m.nRealSize) : Represents h { m with nSize := n } :=
  ⟨hn, hm.limit, hm.allocated, hm.fits⟩

theorem setLength_spec (hm : Represents h m) :
    ∃ h' m', m.setLength junk n h = some (h', m') ∧ Represents h' m' := by
  obtain ⟨h', m', hcall, hm', -⟩ := @setRealLength_spec junk h m n hm
  refine ⟨h', _, by rw [MemBuf.setLength, hcall]; rfl, hm'.setLength ?_⟩
  split_ifs with hlt
  · exact hlt.le
  · exact le_rfl

theorem right_of_admits (hs : Represents s.1 s.2) (hc : Admits s c) : Right junk s c := by
  cases c with
  | addBuffer src =>
    obtain ⟨hload, hspared⟩ := hc
    obtain ⟨text, hload⟩ := Option.isSome_iff_exists.mp hload
    by_cases hzero : s.2.allowed src.size = 0
    · refine ⟨s, addBuffer_zero hs hzero, hs, text, hload, ?_⟩
      rw [hzero, List.take_zero, List.append_nil]
    · obtain ⟨h', m', hcall, hm', hcontent, -⟩ := @addBuffer_appends junk _ _ _ _ hs hload (hspared.resolve_left hzero) hzero
      exact ⟨(h', m'), hcall, hm', text, hload, hcontent⟩
  | setBuffer src =>
    obtain ⟨hload, hspared⟩ := hc
    obtain ⟨text, htext⟩ := Option.isSome_iff_exists.mp hload
    obtain ⟨h', m', hcall, hm', -⟩ := @setBuffer_sets junk _ _ _ _ hs htext hspared
    exact ⟨(h', m'), hcall, hm', hload⟩
  | setLength newSize =>
    obtain ⟨h', m', hcall, hm'⟩ := @setLength_spec junk _ _ newSize hs
    exact ⟨(h', m'), hcall, hm', trivial⟩
  | setRealLength newSize =>
    obtain ⟨h', m', hcall, hm', -⟩ := @setRealLength_spec junk _ _ newSize hs
    exact ⟨(h', m'), hcall, hm', trivial⟩
  | setSizeLimit newSize => exact ⟨_, rfl, ⟨hs.size_le, hc, hs.allocated, hs.fits⟩, trivial⟩

theorem admits_of_right (hs : Represents s.1 s.2) (hc : Right junk s c) : Admits s c := by
  obtain ⟨s', hexec, hs', hmeets⟩ := hc
  cases c with
  | addBuffer src =>
    obtain ⟨text, hload, -⟩ := hmeets
    refine ⟨by rw [hload]; rfl, ?_⟩
    by_contra hnot
    rw [not_or] at hnot
    have hfails : s.2.addBuffer junk src s.1 = none := addBuffer_fails hs hnot.2 hnot.1
    exact Option.some_ne_none s' (hexec.symm.trans hfails)
  | setBuffer src =>
    refine ⟨hmeets, ?_⟩
    by_contra hnot
    rw [not_or] at hnot
    have hfails : s.2.setBuffer junk src s.1 = none := setBuffer_fails hs hnot.1 hnot.2
    exact Option.some_ne_none s' (hexec.symm.trans hfails)
  | setLength newSize => trivial
  | setRealLength newSize => trivial
  | setSizeLimit newSize =>
    cases hexec
    exact hs'.limit

/-- **The calls that keep the representation.** A run is right at every call exactly when no limit is set below
the capacity and no argument is lost or overlapped by the call itself. -/
theorem represented_iff (junk : Nat → Byte) (s : Heap Byte × MemBuf) (calls : List Call) (hs : Represents s.1 s.2) :
    Along (exec junk) (Right junk) calls s ↔ Along (exec junk) Admits calls s := by
  refine @along_congr _ _ _ (fun s => Represents s.1 s.2) _ _ _ _ ?_ ?_ hs
  · intro s c s' hs hc hexec
    obtain ⟨s₁, hexec₁, hs₁, -⟩ := @right_of_admits junk s c hs hc
    obtain rfl := Option.some.inj (hexec₁.symm.trans hexec)
    exact hs₁
  · exact fun s c hs => ⟨admits_of_right hs, right_of_admits hs⟩

end

theorem represented_hello : Along (exec fun _ => 0) (Right fun _ => 0)
    [.setBuffer (.outside (ascii "he")), .setSizeLimit 4, .addBuffer (.outside (ascii "llo"))] ([], new) := by
  refine (represented_iff _ _ _ (represents_new [])).mpr ?_
  decide

/-- A buffer of two bytes grows after its limit was set to one: two bytes are copied to a block of one. -/
theorem limit_overflows : ¬∀ (junk : Nat → Byte) (s : Heap Byte × MemBuf) (calls : List Call),
    Represents s.1 s.2 → Along (exec junk) (Right junk) calls s := by
  intro h
  have hrun := h (fun _ => 0) ([], new) ([.setBuffer (.outside (ascii "ab")), .setSizeLimit 1] ++ [.setRealLength 3])
    (represents_new [])
  obtain ⟨s', hexec, -⟩ := hrun.last rfl
  have hsome := Option.isSome_of_eq_some hexec
  exact absurd hsome (by decide)

end MyServer.MemBuf
