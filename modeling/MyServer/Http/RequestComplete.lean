import MyServer.Http.RequestHeader

/-!
# Whether a request is complete

What `validHTTPRequest` tells of the first bytes of a buffer, and which bytes it looks at for that.
-/

open MyServer.HeaderLines

namespace MyServer.RequestHeader

/-! ## The bytes it looks at -/

/-- The loop again, with the places that are read. -/
def readsLoop (req : Nat → Byte) : Nat → Nat → Nat → Nat → List Nat
  | 0, _, _, _ => []
  | left + 1, i, nLinechars, nLines =>
    if req i = LF then
      if req (i + 2) = LF then [i, i + 2]
      else if 25 ≤ nLines then [i, i + 2]
      else i :: (i + 2) :: readsLoop req left (i + 1) 1 (nLines + 1)
    else if req i = 0 then [i]
    else if 2048 ≤ nLinechars then [i]
    else i :: readsLoop req left (i + 1) (nLinechars + 1) nLines

def readsHTTPRequest (req : Nat → Byte) : List Nat := readsLoop req (2 ^ 13) 0 0 0

/-! ## Empty lines -/

def LineStart (req : Nat → Byte) (p : Nat) : Prop := p = 0 ∨ ∃ q, p = q + 1 ∧ req q = LF

/-- An empty line that ends in front of `n`. -/
def EmptyLine (req : Nat → Byte) (n : Nat) : Prop :=
  ∃ p, LineStart req p ∧
    (req p = LF ∧ n = p + 1 ∨ req p = ch '\r' ∧ req (p + 1) = LF ∧ n = p + 2)

/-- The first bytes hold a header that ends in front of `n`. -/
structure HeaderEnds (req : Nat → Byte) (size n : Nat) : Prop where
  inside : n ≤ size
  empty : EmptyLine req n
  first : ∀ m, EmptyLine req m → n ≤ m

/-- What is told is so, and comes from the first bytes. -/
structure Tells (req : Nat → Byte) (size : Nat) : Prop where
  complete : ∀ n, validHTTPRequest req size = .valid n → HeaderEnds req size n
  incomplete : validHTTPRequest req size = .incomplete → ∀ n ≤ size, ¬EmptyLine req n
  reads : ∀ i ∈ readsHTTPRequest req, i < size

/-! ## Where the scan ends -/

/-- The characters in front of a place that count for its line: an LF counts for the line behind it. -/
def charsBefore (req : Nat → Byte) : Nat → Nat
  | 0 => 0
  | i + 1 => if req i = LF then 1 else charsBefore req i + 1

/-- The LFs in front of a place. -/
def linesBefore (req : Nat → Byte) : Nat → Nat
  | 0 => 0
  | i + 1 => if req i = LF then linesBefore req i + 1 else linesBefore req i

/-- An LF with another one two places behind it, one LF too many, a NUL, or a line that is too long. -/
inductive ScanEnd
  | header
  | lines
  | nul
  | long
deriving DecidableEq

def scanEnd (req : Nat → Byte) (i : Nat) : Option ScanEnd :=
  if req i = LF then
    if req (i + 2) = LF then some .header else if 25 ≤ linesBefore req i then some .lines else none
  else if req i = 0 then some .nul
  else if 2048 ≤ charsBefore req i then some .long
  else none

/-- An empty line that is no end for the scan: the first one, or one that is nothing but an LF. -/
def Hidden (req : Nat → Byte) (k : Nat) : Prop :=
  req 0 = LF ∨ req 0 = ch '\r' ∧ req 1 = LF ∨ ∃ q < k, req q = LF ∧ req (q + 1) = LF

/-- The places in front of `k` are inside, and so are the ones two behind an LF. -/
def ReadsInside (req : Nat → Byte) (size k : Nat) : Prop := ∀ i < k, i < size ∧ (req i = LF → i + 2 < size)

/-- What has to hold at the end. -/
def ScanEnd.Told (req : Nat → Byte) (size k : Nat) : ScanEnd → Prop
  | .header => req (k + 1) = ch '\r' ∧ ¬Hidden req (k + 1)
  | .nul => ∀ n ≤ size, ¬EmptyLine req n
  | .lines | .long => True

/-- The 8 KB are over, and an empty line ends with the third byte behind them. -/
def EndsBehind (req : Nat → Byte) (k : Nat) : Prop :=
  req (k + 2) = LF ∧ (req (k + 1) = LF ∨ req (k + 1) = ch '\r' ∧ req k = LF) ∧ ¬Hidden req (k + 1)

/-- The scan has an end in the 8 KB and tells it, or it has none and the header ends right behind them. -/
def ScanTells (req : Nat → Byte) (size : Nat) : Prop :=
  (∃ k < 2 ^ 13, ∃ e, (∀ j < k, scanEnd req j = none) ∧ scanEnd req k = some e ∧ ReadsInside req size (k + 1) ∧
      e.Told req size k) ∨
    (∀ j < 2 ^ 13, scanEnd req j = none) ∧ ReadsInside req size (2 ^ 13) ∧ 2 ^ 13 + 3 ≤ size ∧
      EndsBehind req (2 ^ 13)

section

variable {req : Nat → Byte} {size : Nat}

/-! ## Empty lines in front of an end -/

theorem scanEnd_header {k : Nat} : scanEnd req k = some .header ↔ req k = LF ∧ req (k + 2) = LF := by
  unfold scanEnd
  split_ifs <;> simp_all

/-- In front of an end, the scan has missed the hidden ones only. -/
theorem first_iff {k : Nat} (hnone : ∀ j < k, scanEnd req j = none) :
    (∀ n, EmptyLine req n → k + 3 ≤ n) ↔ ¬Hidden req (k + 1) := by
  constructor
  · rintro hfirst (hzero | ⟨hcr, hlf⟩ | ⟨q, hq, hlf, hnext⟩)
    · have hle := hfirst 1 ⟨0, Or.inl rfl, Or.inl ⟨hzero, rfl⟩⟩
      omega
    · have hle := hfirst 2 ⟨0, Or.inl rfl, Or.inr ⟨hcr, hlf, rfl⟩⟩
      omega
    · have hle := hfirst (q + 2) ⟨q + 1, Or.inr ⟨q, rfl, hlf⟩, Or.inl ⟨hnext, rfl⟩⟩
      omega
  · rintro hhidden n ⟨p, hstart, hline⟩
    by_contra hlt
    rcases hstart with rfl | ⟨q, rfl, hlf⟩
    · rcases hline with ⟨hlf, -⟩ | ⟨hcr, hlf, -⟩
      · exact hhidden (Or.inl hlf)
      · exact hhidden (Or.inr (Or.inl ⟨hcr, hlf⟩))
    · rcases hline with ⟨hnext, rfl⟩ | ⟨-, hnext, rfl⟩
      · exact hhidden (Or.inr (Or.inr ⟨q, by omega, hlf, hnext⟩))
      · have hheader := scanEnd_header.mpr ⟨hlf, hnext⟩
        rw [hnone q (by omega)] at hheader
        cases hheader

theorem emptyLine_iff (n : Nat) :
    EmptyLine req (n + 3) ↔ req (n + 2) = LF ∧ (req (n + 1) = LF ∨ req (n + 1) = ch '\r' ∧ req n = LF) := by
  constructor
  · rintro ⟨p, hstart, ⟨hlf, hn⟩ | ⟨hcr, hlf, hn⟩⟩
    · obtain rfl : p = n + 2 := by omega
      obtain ⟨q, hq, hprev⟩ := hstart.resolve_left (by omega)
      obtain rfl : q = n + 1 := by omega
      exact ⟨hlf, Or.inl hprev⟩
    · obtain rfl : p = n + 1 := by omega
      obtain ⟨q, hq, hprev⟩ := hstart.resolve_left (by omega)
      obtain rfl : q = n := by omega
      exact ⟨hlf, Or.inr ⟨hcr, hprev⟩⟩
  · rintro ⟨hlf, hprev | ⟨hcr, hprev⟩⟩
    · exact ⟨n + 2, Or.inr ⟨n + 1, rfl, hprev⟩, Or.inl ⟨hlf, rfl⟩⟩
    · exact ⟨n + 1, Or.inr ⟨n, rfl, hprev⟩, Or.inr ⟨hcr, hlf, rfl⟩⟩

theorem headerEnds_iff {k : Nat} (hnone : ∀ j < k, scanEnd req j = none) :
    HeaderEnds req size (k + 3) ↔ k + 3 ≤ size ∧ EndsBehind req k := by
  constructor
  · rintro ⟨hinside, hempty, hfirst⟩
    obtain ⟨hlf, hprev⟩ := (emptyLine_iff k).mp hempty
    exact ⟨hinside, hlf, hprev, (first_iff hnone).mp hfirst⟩
  · rintro ⟨hinside, hlf, hprev, hhidden⟩
    exact ⟨hinside, (emptyLine_iff k).mpr ⟨hlf, hprev⟩, (first_iff hnone).mpr hhidden⟩

/-! ## The loop up to its end -/

/-- What is told at an end. -/
def ScanEnd.told (req : Nat → Byte) (size k : Nat) : ScanEnd → Check
  | .header => if size < k + 3 then .error 400 else .valid (k + 3)
  | .lines => .error 400
  | .nul => .incomplete
  | .long => .error (if linesBefore req k = 0 then 414 else 400)

/-- A place is read, and behind an LF the one two behind it. -/
def readAt (req : Nat → Byte) (i : Nat) : List Nat := if req i = LF then [i, i + 2] else [i]

theorem loop_goes {left i : Nat} (h : scanEnd req i = none) :
    validLoop req size (left + 1) i (charsBefore req i) (linesBefore req i) =
        validLoop req size left (i + 1) (charsBefore req (i + 1)) (linesBefore req (i + 1)) ∧
      readsLoop req (left + 1) i (charsBefore req i) (linesBefore req i) =
        readAt req i ++ readsLoop req left (i + 1) (charsBefore req (i + 1)) (linesBefore req (i + 1)) := by
  unfold scanEnd at h
  rw [validLoop, readsLoop, charsBefore, linesBefore, readAt]
  split_ifs at h ⊢ <;> exact ⟨rfl, rfl⟩

theorem loop_ends {left k : Nat} {e : ScanEnd} (h : scanEnd req k = some e) :
    validLoop req size (left + 1) k (charsBefore req k) (linesBefore req k) = e.told req size k ∧
      readsLoop req (left + 1) k (charsBefore req k) (linesBefore req k) = readAt req k := by
  unfold scanEnd at h
  rw [validLoop, readsLoop, readAt]
  split_ifs at h ⊢ <;> cases h <;> simp_all [ScanEnd.told]

/-- The loop where it has come to `i`, up to `k`. -/
theorem loop_upTo {n i left : Nat} (hnone : ∀ j, i ≤ j → j < i + n → scanEnd req j = none) :
    validLoop req size (n + left) i (charsBefore req i) (linesBefore req i) =
        validLoop req size left (i + n) (charsBefore req (i + n)) (linesBefore req (i + n)) ∧
      readsLoop req (n + left) i (charsBefore req i) (linesBefore req i) =
        (List.range' i n).flatMap (readAt req) ++
          readsLoop req left (i + n) (charsBefore req (i + n)) (linesBefore req (i + n)) := by
  induction n generalizing i with
  | zero =>
    rw [Nat.zero_add, Nat.add_zero]
    exact ⟨rfl, rfl⟩
  | succ n ih =>
    have hturns : n + 1 + left = n + left + 1 := by omega
    have hplace : i + (n + 1) = i + 1 + n := by omega
    have hhere := hnone i le_rfl (by omega)
    obtain ⟨hvalid, hreads⟩ := @loop_goes req size (n + left) i hhere
    obtain ⟨hvalid', hreads'⟩ := @ih (i + 1) fun j hle hlt => hnone j (by omega) (by omega)
    rw [hturns, hplace, hvalid, hreads, hvalid', hreads', List.range'_succ, List.flatMap_cons, List.append_assoc]
    exact ⟨rfl, rfl⟩

theorem forall_reads {n : Nat} :
    (∀ i ∈ (List.range' 0 n).flatMap (readAt req), i < size) ↔ ReadsInside req size n := by
  have hat : ∀ i, (∀ j ∈ readAt req i, j < size) ↔ i < size ∧ (req i = LF → i + 2 < size) := by
    intro i
    unfold readAt
    split_ifs with hlf <;> simp [hlf]
  constructor
  · intro h i hi
    exact (hat i).mp fun j hj => h j (List.mem_flatMap.mpr ⟨i, by simpa using hi, hj⟩)
  · rintro h j hj
    obtain ⟨i, hi, hj⟩ := List.mem_flatMap.mp hj
    exact (hat i).mpr (h i (by simpa using hi)) j hj

/-- The scan with an end. -/
theorem scan_ends {k : Nat} {e : ScanEnd} (hk : k < 2 ^ 13) (hnone : ∀ j < k, scanEnd req j = none)
    (hend : scanEnd req k = some e) :
    validHTTPRequest req size = e.told req size k ∧
      ((∀ i ∈ readsHTTPRequest req, i < size) ↔ ReadsInside req size (k + 1)) := by
  obtain ⟨left, hleft⟩ : ∃ left, 2 ^ 13 = k + (left + 1) := ⟨2 ^ 13 - k - 1, by omega⟩
  obtain ⟨hvalid, hreads⟩ := @loop_upTo req size k 0 (left + 1) fun j _ hj => hnone j (by omega)
  rw [Nat.zero_add] at hvalid hreads
  obtain ⟨hlast, hlastReads⟩ := @loop_ends req size left k e hend
  rw [hlast] at hvalid
  rw [hlastReads] at hreads
  have hall : readsHTTPRequest req = (List.range' 0 (k + 1)).flatMap (readAt req) := by
    rw [readsHTTPRequest, hleft]
    refine hreads.trans ?_
    rw [List.range'_concat, List.flatMap_append]
    simp
  refine ⟨?_, ?_⟩
  · rw [validHTTPRequest, hleft]
    exact hvalid
  · rw [hall]
    exact forall_reads

/-- The scan without one. -/
theorem scan_over (hnone : ∀ j < 2 ^ 13, scanEnd req j = none) :
    validHTTPRequest req size = .valid (2 ^ 13 + 3) ∧
      ((∀ i ∈ readsHTTPRequest req, i < size) ↔ ReadsInside req size (2 ^ 13)) := by
  obtain ⟨hvalid, hreads⟩ := @loop_upTo req size (2 ^ 13) 0 0 fun j _ hj => hnone j (by omega)
  rw [Nat.zero_add] at hvalid hreads
  refine ⟨?_, ?_⟩
  · exact hvalid
  · have hall : readsHTTPRequest req = (List.range' 0 (2 ^ 13)).flatMap (readAt req) := by
      refine hreads.trans ?_
      rw [readsLoop, List.append_nil]
    rw [hall]
    exact forall_reads

/-! ## What is told -/

theorem told_header {k : Nat} (hnone : ∀ j < k, scanEnd req j = none) (hend : scanEnd req k = some .header)
    (hinside : k + 3 ≤ size) : HeaderEnds req size (k + 3) ↔ ScanEnd.header.Told req size k := by
  obtain ⟨hlf, hnext⟩ := scanEnd_header.mp hend
  rw [headerEnds_iff hnone]
  constructor
  · rintro ⟨-, -, hprev, hhidden⟩
    refine ⟨?_, hhidden⟩
    rcases hprev with hbare | ⟨hcr, -⟩
    · exact absurd (Or.inr (Or.inr ⟨k, Nat.lt_succ_self k, hlf, hbare⟩)) hhidden
    · exact hcr
  · rintro ⟨hcr, hhidden⟩
    exact ⟨hinside, hnext, Or.inr ⟨hcr, hlf⟩, hhidden⟩

theorem tells_end {k : Nat} {e : ScanEnd} (hk : k < 2 ^ 13) (hnone : ∀ j < k, scanEnd req j = none)
    (hend : scanEnd req k = some e) : Tells req size ↔ ReadsInside req size (k + 1) ∧ e.Told req size k := by
  obtain ⟨hvalid, hreads⟩ := @scan_ends req size k e hk hnone hend
  have hsplit : Tells req size ↔ ReadsInside req size (k + 1) ∧
      (∀ n, e.told req size k = .valid n → HeaderEnds req size n) ∧
        (e.told req size k = .incomplete → ∀ n ≤ size, ¬EmptyLine req n) := by
    rw [← hvalid, ← hreads]
    exact ⟨fun h => ⟨h.reads, h.complete, h.incomplete⟩, fun h => ⟨h.2.1, h.2.2, h.1⟩⟩
  rw [hsplit]
  refine and_congr_right fun hinside => ?_
  cases e with
  | header =>
    obtain ⟨hlf, -⟩ := scanEnd_header.mp hend
    have hsize := (hinside k (Nat.lt_succ_self k)).2 hlf
    have htold : ScanEnd.header.told req size k = .valid (k + 3) := if_neg (by omega)
    rw [htold, ← told_header hnone hend (by omega)]
    exact ⟨fun h => h.1 (k + 3) rfl, fun h => ⟨fun n hn => by rwa [← Check.valid.inj hn], nofun⟩⟩
  | lines => exact ⟨fun _ => trivial, fun _ => ⟨nofun, nofun⟩⟩
  | nul => exact ⟨fun h => h.2 rfl, fun h => ⟨nofun, fun _ => h⟩⟩
  | long => exact ⟨fun _ => trivial, fun _ => ⟨nofun, nofun⟩⟩

theorem tells_over (hnone : ∀ j < 2 ^ 13, scanEnd req j = none) :
    Tells req size ↔ ReadsInside req size (2 ^ 13) ∧ HeaderEnds req size (2 ^ 13 + 3) := by
  obtain ⟨hvalid, hreads⟩ := @scan_over req size hnone
  rw [← hreads]
  constructor
  · exact fun h => ⟨h.reads, h.complete _ hvalid⟩
  · rintro ⟨hinside, hends⟩
    refine ⟨fun n hn => ?_, fun hn => ?_, hinside⟩
    · rw [hvalid] at hn
      rwa [← Check.valid.inj hn]
    · rw [hvalid] at hn
      cases hn

/-- **The test of completeness** is right where the scan ends well. -/
theorem tells_iff (req : Nat → Byte) (size : Nat) : Tells req size ↔ ScanTells req size := by
  constructor
  · intro htells
    by_cases hend : ∃ k, k < 2 ^ 13 ∧ scanEnd req k ≠ none
    · obtain ⟨hk, hsome⟩ := Nat.find_spec hend
      have hnone : ∀ j < Nat.find hend, scanEnd req j = none := by
        intro j hj
        by_contra hne
        exact Nat.find_min hend hj ⟨by omega, hne⟩
      obtain ⟨e, he⟩ := Option.ne_none_iff_exists'.mp hsome
      obtain ⟨hinside, htold⟩ := (tells_end hk hnone he).mp htells
      exact Or.inl ⟨_, hk, e, hnone, he, hinside, htold⟩
    · have hnone : ∀ j < 2 ^ 13, scanEnd req j = none := by
        intro j hj
        by_contra hne
        exact hend ⟨j, hj, hne⟩
      obtain ⟨hinside, hends⟩ := (tells_over hnone).mp htells
      obtain ⟨hsize, hbehind⟩ := (headerEnds_iff hnone).mp hends
      exact Or.inr ⟨hnone, hinside, hsize, hbehind⟩
  · rintro (⟨k, hk, e, hnone, hend, hinside, htold⟩ | ⟨hnone, hinside, hsize, hbehind⟩)
    · exact (tells_end hk hnone hend).mpr ⟨hinside, htold⟩
    · exact (tells_over hnone).mpr ⟨hinside, (headerEnds_iff hnone).mpr ⟨hsize, hbehind⟩⟩

end

/-- A header with bare LFs is complete, and is waited for. -/
theorem not_tells : ¬∀ (req : Nat → Byte) (size : Nat), Tells req size := by
  intro hall
  have hincomplete : validHTTPRequest (filled (ascii "GET / HTTP/1.0\n\n") fun _ => 0) 17 = .incomplete := by
    decide +kernel
  refine (hall _ 17).incomplete hincomplete 16 (by decide) ((emptyLine_iff 13).mpr ⟨?_, Or.inl ?_⟩)
  · decide
  · decide

end MyServer.RequestHeader
