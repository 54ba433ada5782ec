import MyServer.Http.FastCgiRecords

/-!
# When a FastCGI response reaches the client

Each record has to arrive in one read, and the first one with the whole header.
What is lost otherwise is not made up for later, since each byte is read once.
-/

namespace MyServer.FastCgi

open Fragments (CutAt Proper Taken ReadAt)

section Reader

variable {α : Type} {value : α → Byte} {env : Env}

/-! ## Reads -/

theorem readHeader_some {fs fs' : List (List α)} {head : List α} (hproper : Proper fs)
    (h : readHeader fs = some (head, fs')) : head.length = 8 ∧ Taken fs head fs' :=
  Fragments.takeAll_some hproper h

theorem readHeader_record {fs : List (List α)} (hproper : Proper fs) (r : Record value)
    {rest : List α} (hfs : fs.flatten = r.encode ++ rest) :
    ∃ fs', readHeader fs = some (r.head, fs') ∧ Taken fs r.head fs' := by
  have hlength := congrArg List.length hfs
  rw [List.length_append, r.length_encode] at hlength
  obtain ⟨⟨head, fs'⟩, hread⟩ := Fragments.takeAll_of_le hproper (le_refl 8) (by omega)
  obtain ⟨hhead, htaken⟩ := readHeader_some hproper hread
  have heq : head = r.head := by
    rw [htaken.eq_take, hfs, hhead, Record.encode, List.append_assoc, ← r.head_length,
      List.take_left]
  subst heq
  exact ⟨fs', hread, htaken⟩

theorem readPadding_some {n : Nat} {fs fs' : List (List α)} {pad : List α} (hproper : Proper fs)
    (h : readPadding env n fs = some (pad, fs')) : Taken fs pad fs' :=
  (Fragments.takeAll_some hproper h).2

variable (env) in
/-- The padding of a record fits in the buffer. -/
theorem readPadding_record {n : Nat} {fs : List (List α)} (hproper : Proper fs) (hn : n < 256)
    {padding rest : List α} (hlength : padding.length = n) (hfs : fs.flatten = padding ++ rest) :
    ∃ fs', readPadding env n fs = some (padding, fs') ∧ Taken fs padding fs' := by
  have hbuffer := env.realLength_ge
  have hall := congrArg List.length hfs
  rw [List.length_append] at hall
  unfold readPadding
  rw [if_neg (by omega)]
  obtain ⟨⟨pad, fs'⟩, hread⟩ := Fragments.takeAll_of_le hproper (le_refl n) (by omega)
  obtain ⟨hpad, htaken⟩ := Fragments.takeAll_some hproper hread
  have heq : pad = padding := by
    rw [htaken.eq_take, hfs, hpad, ← hlength, List.take_left]
  subst heq
  exact ⟨fs', hread, htaken⟩

theorem lastRead_some {dim fuel dataRead : Nat} {fs fs' : List (List α)} {buffer : List α}
    (hproper : Proper fs) (h : lastRead env dim fuel dataRead fs = some (buffer, fs')) :
    ∃ lost, Taken fs (lost ++ buffer) fs' := by
  induction fuel generalizing dataRead fs with
  | zero => cases h
  | succ fuel ih =>
    have htake := Fragments.taken_take hproper (min env.realLength dim)
    unfold lastRead at h
    obtain ⟨-, h⟩ := Option.ite_none_left_eq_some.mp h
    split at h
    · obtain ⟨lost, htaken⟩ := ih htake.proper h
      have hall := htake.trans htaken
      rw [← List.append_assoc] at hall
      exact ⟨_, hall⟩
    · rw [Option.some.inj h] at htake
      exact ⟨[], htake⟩

theorem afterPadding_mem {header : FcgiHeader} {fs : List (List α)}
    {next : List (List α) → Option (List α)} {l : List α} (hproper : Proper fs)
    (hnext : ∀ fs' l, Proper fs' → next fs' = some l → ∀ x ∈ l, x ∈ fs'.flatten.drop 8)
    (h : afterPadding env header fs next = some l) : ∀ x ∈ l, x ∈ fs.flatten.drop 8 := by
  unfold afterPadding at h
  split at h
  · cases h
    exact fun x hx => absurd hx List.not_mem_nil
  · rename_i pad fs' hpad
    have htaken := readPadding_some hproper hpad
    intro x hx
    have hmem := hnext fs' l htaken.proper h x hx
    rw [htaken.eq_drop, List.drop_drop, Nat.add_comm, ← List.drop_drop] at hmem
    exact List.mem_of_mem_drop hmem

/-! ## What is lost stays lost -/

/-- What `sendData` forwards is among what it has read. -/
theorem sendData_mem {dim : Nat} {headerSent : Option Bool} {fs fs' : List (List α)}
    {successful : Bool} {data : List α} (hproper : Proper fs)
    (h : sendData value env dim headerSent fs = .forwarded successful data fs') :
    ∃ read, Taken fs read fs' ∧ ∀ x ∈ data, x ∈ read := by
  unfold sendData at h
  split at h
  · dsimp only at h
    split at h
    · cases h
    · cases hhandled : handleHeader value env
        (Fragments.take (min env.realLength dim) fs).1 with
      | overrun =>
        rw [hhandled] at h
        cases h
      | completed =>
        rw [hhandled] at h
        cases h
      | started =>
        rw [hhandled] at h
        unfold handleHeader at hhandled
        dsimp only at hhandled
        cases h
        refine ⟨_, Fragments.taken_take hproper _, ?_⟩
        split_ifs at hhandled <;> cases hhandled
        · exact fun x hx => List.mem_of_mem_drop hx
        · exact fun x hx => absurd hx List.not_mem_nil
  · split at h
    · cases h
    · rename_i hread
      obtain ⟨lost, htaken⟩ := lastRead_some hproper hread
      split at h
      · cases h
      · cases h
        exact ⟨_, htaken, fun x hx => List.mem_append_right _ hx⟩

theorem mem_of_ended {l m : List α} (h : some [] = some l) : ∀ x ∈ l, x ∈ m := by
  cases h
  exact fun x hx => absurd hx List.not_mem_nil

/-- What is forwarded stands behind the header of the next record, whatever that is. -/
theorem loop_mem {fuel : Nat} {headerSent : Option Bool} {fs : List (List α)} {l : List α}
    (hproper : Proper fs) (h : loop value env fuel headerSent fs = some l) :
    ∀ x ∈ l, x ∈ fs.flatten.drop 8 := by
  induction fuel generalizing headerSent fs l with
  | zero =>
    cases h
    exact fun x hx => absurd hx List.not_mem_nil
  | succ fuel ih =>
    have hnext : ∀ {header headerSent fs₂ l}, Proper fs₂ →
        afterPadding env header fs₂ (loop value env fuel headerSent) = some l →
        ∀ x ∈ l, x ∈ fs₂.flatten := by
      intro header headerSent fs₂ l hproper₂ hl x hx
      exact List.mem_of_mem_drop (afterPadding_mem hproper₂ (fun _ _ hp hl => ih hp hl) hl x hx)
    unfold loop at h
    split at h
    · exact mem_of_ended h
    · rename_i head fs₁ hhead
      obtain ⟨hlength, htaken⟩ := readHeader_some hproper hhead
      rw [← hlength, ← htaken.eq_drop]
      dsimp only at h
      split_ifs at h
      · exact mem_of_ended h
      · exact mem_of_ended h
      · exact mem_of_ended h
      · cases hsent : sendData value env (FcgiHeader.ofBytes (head.map value)).dim headerSent fs₁ with
        | overrun =>
          rw [hsent] at h
          cases h
        | ended =>
          rw [hsent] at h
          exact mem_of_ended h
        | forwarded successful data fs₂ =>
          rw [hsent] at h
          obtain ⟨read, htaken₂, hdata⟩ := sendData_mem htaken.proper hsent
          obtain ⟨m, hm, rfl⟩ := Option.map_eq_some_iff.mp h
          intro x hx
          rw [← htaken₂.append]
          rcases List.mem_append.mp hx with hx | hx
          · exact List.mem_append_left _ (hdata x hx)
          · exact List.mem_append_right _ (hnext htaken₂.proper hm x hx)
      · exact hnext htaken.proper h

theorem afterPadding_loop_mem {header : FcgiHeader} {fuel : Nat} {headerSent : Option Bool}
    {fs : List (List α)} {l : List α} (hproper : Proper fs)
    (h : afterPadding env header fs (loop value env fuel headerSent) = some l) :
    ∀ x ∈ l, x ∈ fs.flatten.drop 8 :=
  afterPadding_mem hproper (fun _ _ hp hl => loop_mem hp hl) h

/-- The loop never runs out of turns: each takes a header at least. -/
theorem loop_fuel {fuel fuel' : Nat} {headerSent : Option Bool} {fs : List (List α)}
    (hproper : Proper fs) (h : fs.flatten.length ≤ fuel) (h' : fs.flatten.length ≤ fuel') :
    loop value env fuel headerSent fs = loop value env fuel' headerSent fs := by
  induction fuel generalizing fuel' headerSent fs with
  | zero =>
    have hnone : readHeader fs = none := by
      cases hhead : readHeader fs with
      | none => rfl
      | some r =>
        obtain ⟨hlength, htaken⟩ := readHeader_some hproper hhead
        have hall := htaken.length
        omega
    cases fuel' with
    | zero => rfl
    | succ fuel' =>
      unfold loop
      rw [hnone]
  | succ fuel ih =>
    cases hhead : readHeader fs with
    | none =>
      cases fuel' with
      | zero =>
        unfold loop
        rw [hhead]
      | succ fuel' =>
        unfold loop
        rw [hhead]
    | some r =>
      obtain ⟨head, fs₁⟩ := r
      obtain ⟨hlength, htaken⟩ := readHeader_some hproper hhead
      have hall := htaken.length
      obtain ⟨fuel', rfl⟩ : ∃ n, fuel' = n + 1 := ⟨fuel' - 1, by omega⟩
      have hnext : ∀ header headerSent fs₂ read, Taken fs₁ read fs₂ →
          afterPadding env header fs₂ (loop value env fuel headerSent) =
            afterPadding env header fs₂ (loop value env fuel' headerSent) := by
        intro header headerSent fs₂ read htaken₂
        unfold afterPadding
        split
        · rfl
        · rename_i hpad
          have htaken₃ := htaken₂.trans (readPadding_some htaken₂.proper hpad)
          have hrest := htaken₃.length
          exact ih htaken₃.proper (by omega) (by omega)
      unfold loop
      rw [hhead]
      dsimp only
      split_ifs
      · rfl
      · rfl
      · rfl
      · cases hsent : sendData value env (FcgiHeader.ofBytes (head.map value)).dim headerSent fs₁ with
        | overrun => rfl
        | ended => rfl
        | forwarded successful data fs₂ =>
          obtain ⟨read, htaken₂, -⟩ := sendData_mem htaken.proper hsent
          rw [andThen_forwarded, andThen_forwarded, hnext _ _ _ _ htaken₂]
      · exact hnext _ _ _ _ (Taken.refl htaken.proper)

/-- Under any other status nothing is forwarded. -/
theorem loop_unsuccessful (fuel : Nat) (fs : List (List α)) :
    loop value env fuel (some false) fs = some [] := by
  induction fuel generalizing fs with
  | zero => rfl
  | succ fuel ih =>
    have hnext : ∀ header fs₂,
        afterPadding env header fs₂ (loop value env fuel (some false)) = some [] := by
      intro header fs₂
      unfold afterPadding
      split
      · rfl
      · exact ih _
    unfold loop
    split
    · rfl
    · dsimp only
      split_ifs
      · rfl
      · rfl
      · rfl
      · have hsent : ∀ dim fs₂, sendData value env dim (some false) fs₂ = .ended := by
          intro dim fs₂
          unfold sendData
          dsimp only
          split
          · rfl
          · rw [if_pos (by simp)]
        rw [hsent, andThen_ended]
      · exact hnext _ _

/-- Once the header is sent nothing is read past the buffer. -/
theorem loop_isSome (fuel : Nat) (successful : Bool) (fs : List (List α)) :
    ∃ l, loop value env fuel (some successful) fs = some l := by
  induction fuel generalizing fs successful with
  | zero => exact ⟨_, rfl⟩
  | succ fuel ih =>
    have hnext : ∀ header fs₂ successful, ∃ l,
        afterPadding env header fs₂ (loop value env fuel (some successful)) = some l := by
      intro header fs₂ successful
      unfold afterPadding
      split
      · exact ⟨_, rfl⟩
      · exact ih successful _
    unfold loop
    split
    · exact ⟨_, rfl⟩
    · dsimp only
      split_ifs
      · exact ⟨_, rfl⟩
      · exact ⟨_, rfl⟩
      · exact ⟨_, rfl⟩
      · unfold sendData
        dsimp only
        split
        · exact ⟨_, rfl⟩
        · split
          · exact ⟨_, rfl⟩
          · rename_i fs₂ _ _
            obtain ⟨l, hl⟩ := hnext _ fs₂ successful
            rw [andThen_forwarded, hl]
            exact ⟨_, rfl⟩
      · exact hnext _ _ successful

/-! ## Well-formed records -/

section WellFormed

variable {fs : List (List α)} {r : Record value} {rest : List α} {fuel : Nat}
  {headerSent : Option Bool}

/-- A record with no data ends the loop, and so does any that is not `STDOUT`. -/
theorem loop_record_other (hproper : Proper fs) (hfs : fs.flatten = r.encode ++ rest)
    (h : r.content = [] ∨ r.type ≠ .stdout) :
    loop value env (fuel + 1) headerSent fs = some [] := by
  obtain ⟨fs₁, hread, -⟩ := readHeader_record hproper r hfs
  obtain ⟨header, heq, htype, hdim, -⟩ := r.header_eq
  unfold loop
  rw [hread]
  dsimp only
  rw [heq, htype, hdim]
  by_cases hempty : r.content = []
  · rw [if_pos (by simp [hempty])]
  · rw [if_neg (by simpa using hempty)]
    rcases h with h | h
    · exact absurd h hempty
    · cases ht : r.type with
      | stdout => exact absurd ht h
      | stderr => exact if_pos rfl
      | endRequest =>
        rw [if_neg (by decide)]
        exact if_pos rfl

variable (env fuel headerSent) in
theorem loop_record_stdout (hproper : Proper fs) (hfs : fs.flatten = r.encode ++ rest)
    (hcontent : r.content ≠ []) (htype : r.type = .stdout) :
    ∃ fs₁ header, Taken fs r.head fs₁ ∧ header.paddingLength.toNat = r.padding.length ∧
      loop value env (fuel + 1) headerSent fs =
        (sendData value env r.content.length headerSent fs₁).andThen fun successful fs₂ =>
          afterPadding env header fs₂ (loop value env fuel (some successful)) := by
  obtain ⟨fs₁, hread, htaken⟩ := readHeader_record hproper r hfs
  obtain ⟨header, heq, ht, hdim, hpadding⟩ := r.header_eq
  refine ⟨fs₁, header, htaken, hpadding, ?_⟩
  rw [loop, hread]
  dsimp only
  rw [heq, hdim, if_neg (by simpa using hcontent), ht, htype, if_neg (by decide),
    if_neg (by decide)]
  exact if_pos rfl

variable (env) in
/-- Behind the data comes the padding, and then the next record. -/
theorem afterPadding_record {header : FcgiHeader} {fs₂ : List (List α)}
    (next : List (List α) → Option (List α)) (hproper : Proper fs₂)
    (hheader : header.paddingLength.toNat = r.padding.length)
    (hfs : fs₂.flatten = r.padding ++ rest) :
    ∃ fs₃, afterPadding env header fs₂ next = next fs₃ ∧ Taken fs₂ r.padding fs₃ := by
  obtain ⟨fs₃, hread, htaken⟩ := readPadding_record env hproper r.padding_lt rfl hfs
  refine ⟨fs₃, ?_, htaken⟩
  unfold afterPadding
  rw [hheader, hread]

/-! ## After the header -/

theorem min_realLength (r : Record value) : min env.realLength r.content.length = r.content.length := by
  have hcontent := r.content_lt
  have hbuffer := env.realLength_ge
  exact Nat.min_eq_right (by omega)

theorem flatten_head {fs₁ : List (List α)} (htaken : Taken fs r.head fs₁)
    (hfs : fs.flatten = r.encode ++ rest) : fs₁.flatten = r.content ++ (r.padding ++ rest) := by
  apply htaken.rest
  rw [hfs, Record.encode, List.append_assoc, List.append_assoc]

/-- The first read of a record gives the beginning of its data. -/
theorem take_content {fs₁ : List (List α)} (hproper : Proper fs₁)
    (hfs : fs₁.flatten = r.content ++ rest) :
    (Fragments.take r.content.length fs₁).1 =
      r.content.take (Fragments.take r.content.length fs₁).1.length := by
  have hle := Fragments.take_length_le r.content.length fs₁
  conv_lhs => rw [(Fragments.taken_take hproper r.content.length).eq_take, hfs]
  rw [List.take_append_of_le_length hle]

/-- Data that comes in one read is forwarded. -/
theorem sendData_whole {fs₁ : List (List α)} (hcontent : r.content ≠ []) (hproper : Proper fs₁)
    (hfs : fs₁.flatten = r.content ++ rest)
    (hwhole : (Fragments.take r.content.length fs₁).1.length = r.content.length) :
    sendData value env r.content.length (some true) fs₁ =
      if env.onlyHeader then .ended
      else .forwarded true r.content (Fragments.take r.content.length fs₁).2 := by
  have hread := take_content hproper hfs
  rw [hwhole, List.take_length] at hread
  obtain ⟨n, hn⟩ := Nat.exists_eq_succ_of_ne_zero (List.length_pos_iff.mpr hcontent).ne'
  have hlast : lastRead env r.content.length r.content.length 0 fs₁ =
      some (r.content, (Fragments.take r.content.length fs₁).2) := by
    conv_lhs =>
      arg 3
      rw [hn]
    unfold lastRead
    rw [min_realLength]
    dsimp only
    rw [hread, if_neg hcontent, if_neg (by omega)]
    exact congrArg some (Prod.ext hread rfl)
  unfold sendData
  rw [hlast]
  simp

/-- Of data that comes in more reads the first one is lost. -/
theorem sendData_short {fs₁ : List (List α)} {next : Bool → List (List α) → Option (List α)}
    {l : List α} (hproper : Proper fs₁) (hcontent : r.content ≠ [])
    (hshort : (Fragments.take r.content.length fs₁).1.length < r.content.length)
    (hnext : ∀ successful fs₂ l, Proper fs₂ → next successful fs₂ = some l →
      ∀ x ∈ l, x ∈ fs₂.flatten)
    (h : (sendData value env r.content.length (some true) fs₁).andThen next = some l) :
    ∀ x ∈ l, x ∈ (Fragments.take r.content.length fs₁).2.flatten := by
  obtain ⟨n, hn⟩ := Nat.exists_eq_succ_of_ne_zero (List.length_pos_iff.mpr hcontent).ne'
  have hunfold : lastRead env r.content.length r.content.length 0 fs₁ =
      if (Fragments.take r.content.length fs₁).1 = [] then none
      else lastRead env r.content.length n (Fragments.take r.content.length fs₁).1.length
        (Fragments.take r.content.length fs₁).2 := by
    conv_lhs =>
      arg 3
      rw [hn]
    rw [lastRead, min_realLength, Nat.zero_add, if_pos hshort]
  unfold sendData at h
  rw [hunfold] at h
  dsimp only at h
  split at h
  · exact mem_of_ended h
  · rename_i buffer fs₂ hread
    obtain ⟨-, hread⟩ := Option.ite_none_left_eq_some.mp hread
    obtain ⟨lost, htaken⟩ := lastRead_some (hproper.take r.content.length) hread
    split at h
    · exact mem_of_ended h
    · rw [andThen_forwarded] at h
      obtain ⟨m, hm, rfl⟩ := Option.map_eq_some_iff.mp h
      intro x hx
      rw [← htaken.append, List.append_assoc]
      apply List.mem_append_right
      rcases List.mem_append.mp hx with hx | hx
      · exact List.mem_append_left _ hx
      · exact List.mem_append_right _ (hnext _ _ _ htaken.proper hm x hx)

/-- Each byte is read once, so that the data of such a record does not come through. -/
theorem sendData_short_ne {fs₁ : List (List α)} {next : Bool → List (List α) → Option (List α)}
    (hproper : Proper fs₁) (hcontent : r.content ≠ []) (hfs : fs₁.flatten = r.content ++ rest)
    (hnodup : fs₁.flatten.Nodup)
    (hshort : (Fragments.take r.content.length fs₁).1.length < r.content.length)
    (hnext : ∀ successful fs₂ l, Proper fs₂ → next successful fs₂ = some l →
      ∀ x ∈ l, x ∈ fs₂.flatten) (tail : List α) :
    (sendData value env r.content.length (some true) fs₁).andThen next ≠ some (r.content ++ tail) := by
  intro h
  have hmem := sendData_short hproper hcontent hshort hnext h
  have hread := Fragments.take_ne_nil hproper (List.length_pos_iff.mpr hcontent)
    (by simp [hfs, hcontent])
  obtain ⟨x, xs, hx⟩ := List.exists_cons_of_ne_nil hread
  have hfirst : x ∈ (Fragments.take r.content.length fs₁).1 := hx ▸ List.mem_cons_self
  have hin : x ∈ r.content := by
    rw [take_content hproper hfs] at hfirst
    exact List.mem_of_mem_take hfirst
  rw [← Fragments.take_flatten r.content.length fs₁] at hnodup
  exact List.disjoint_of_nodup_append hnodup hfirst (hmem x (List.mem_append_left _ hin))

/-- The first read is all of the record's data if and only if no cut is in the way. -/
theorem readAt_whole_iff {fs₁ : List (List α)} (htaken : Taken fs r.head fs₁)
    (hcontent : r.content ≠ []) (hfs : fs₁.flatten = r.content ++ rest) :
    ReadAt fs 8 r.content.length r.content.length ↔
      (Fragments.take r.content.length fs₁).1.length = r.content.length := by
  have hpos := List.length_pos_iff.mpr hcontent
  have hlength := congrArg List.length hfs
  rw [List.length_append] at hlength
  have hread := Fragments.take_readAt fs₁ (n := r.content.length) (by omega)
  have hne := List.length_pos_iff.mpr (Fragments.take_ne_nil htaken.proper hpos
    (by simp [hfs, hcontent]))
  have hshift := htaken.readAt (k := 0) (n := r.content.length) hpos
  rw [r.head_length, Nat.add_zero] at hshift
  rw [← hshift]
  constructor
  · exact fun h => hread.unique h hne hpos
  · intro h
    rwa [h] at hread

end WellFormed

/-- The records from offset `k` on come through: none of them stops the loop before the last data, and
the data of each comes in one read. -/
def Whole (env : Env) (fs : List (List α)) : Nat → List (Record value) → Prop
  | _, [] => True
  | k, r :: rs =>
    if r.content = [] ∨ r.type ≠ .stdout then payload rs = []
    else env.onlyHeader = false ∧ ReadAt fs (k + 8) r.content.length r.content.length ∧
      Whole env fs (k + r.encode.length) rs

theorem Whole.shift {fs fs' : List (List α)} {f : List α} (h : Taken fs f fs') (k : Nat)
    (rs : List (Record value)) : Whole env fs' k rs ↔ Whole env fs (f.length + k) rs := by
  induction rs generalizing k with
  | nil => exact Iff.rfl
  | cons r rs ih =>
    unfold Whole
    split
    · exact Iff.rfl
    · rename_i hr
      push Not at hr
      rw [h.readAt (List.length_pos_iff.mpr hr.1), ih, Nat.add_assoc, Nat.add_assoc]

theorem payload_of_stopping {r : Record value} (rs : List (Record value))
    (h : r.content = [] ∨ r.type ≠ .stdout) : payload (r :: rs) = payload rs := by
  rw [payload_cons]
  unfold Record.payload
  rcases h with h | h
  · simp [h]
  · simp [h]

theorem payload_of_stdout {r : Record value} (rs : List (Record value)) (h : r.type = .stdout) :
    payload (r :: rs) = r.content ++ payload rs := by
  rw [payload_cons, Record.payload, if_pos h]

theorem map_append_eq_some_iff {l : Option (List α)} {front tail : List α} :
    l.map (front ++ ·) = some (front ++ tail) ↔ l = some tail := by
  constructor
  · intro h
    obtain ⟨m, hm, heq⟩ := Option.map_eq_some_iff.mp h
    rw [hm, List.append_cancel_left heq]
  · rintro rfl
    rfl

/-- What follows a record that came whole. -/
theorem afterPadding_eq_iff {last : Record value} {r : Record value} {rs : List (Record value)}
    {fuel : Nat} {header : FcgiHeader} {fs fs₁ fs₂ : List (List α)}
    (htaken : Taken fs r.head fs₁) (htake : Taken fs₁ r.content fs₂)
    (hheader : header.paddingLength.toNat = r.padding.length)
    (hfs : fs.flatten = r.encode ++ (encode rs ++ last.encode)) (hnodup : fs.flatten.Nodup)
    (hfuel : fs.flatten.length ≤ fuel + 1)
    (hloop : ∀ {fs₃}, fs₃.flatten.length ≤ fuel → Proper fs₃ →
      fs₃.flatten = encode rs ++ last.encode → fs₃.flatten.Nodup →
        (loop value env fuel (some true) fs₃ = some (payload rs) ↔ Whole env fs₃ 0 rs)) :
    afterPadding env header fs₂ (loop value env fuel (some true)) = some (payload rs) ↔
      Whole env fs r.encode.length rs := by
  have hfs₂ := htake.rest (flatten_head htaken hfs)
  obtain ⟨fs₃, hpadding, htaken₃⟩ := afterPadding_record env
    (loop value env fuel (some true)) htake.proper hheader hfs₂
  have hall : Taken fs r.encode fs₃ := htaken.trans (htake.trans htaken₃)
  have hlength := hall.length
  rw [r.length_encode] at hlength
  rw [hpadding, hloop (by omega) hall.proper (htaken₃.rest hfs₂) (hall.nodup hnodup),
    Whole.shift hall, Nat.add_zero]

/-- **After the header** exactly the data of the records is forwarded if and only if each record
comes whole. -/
theorem loop_success_iff {last : Record value} (hlast : last.type = .endRequest)
    {rs : List (Record value)} {fuel : Nat} {fs : List (List α)} (hfuel : fs.flatten.length ≤ fuel) (hproper : Proper fs)
    (hfs : fs.flatten = encode rs ++ last.encode) (hnodup : fs.flatten.Nodup) :
    loop value env fuel (some true) fs = some (payload rs) ↔ Whole env fs 0 rs := by
  induction rs generalizing fuel fs with
  | nil =>
    have hlength := congrArg List.length hfs
    rw [List.length_append, last.length_encode] at hlength
    obtain ⟨fuel, rfl⟩ : ∃ n, fuel = n + 1 := ⟨fuel - 1, by omega⟩
    refine iff_of_true ?_ trivial
    exact loop_record_other hproper
      (show fs.flatten = last.encode ++ [] by simpa [encode] using hfs) (Or.inr (by rw [hlast]; decide))
  | cons r rs ih =>
    have hlength := congrArg List.length hfs
    rw [encode_cons, List.append_assoc, List.length_append, r.length_encode] at hlength
    obtain ⟨fuel, rfl⟩ : ∃ n, fuel = n + 1 := ⟨fuel - 1, by omega⟩
    rw [encode_cons, List.append_assoc] at hfs
    by_cases hr : r.content = [] ∨ r.type ≠ .stdout
    · rw [loop_record_other hproper hfs hr, payload_of_stopping rs hr, Whole, if_pos hr]
      exact ⟨fun h => (Option.some.inj h).symm, fun h => by rw [h]⟩
    · rw [Whole, if_neg hr]
      push Not at hr
      obtain ⟨hcontent, htype⟩ := hr
      obtain ⟨fs₁, header, htaken, hheader, hloop⟩ := loop_record_stdout env fuel
        (some true) hproper hfs hcontent htype
      have hfs₁ := flatten_head htaken hfs
      have hnodup₁ := htaken.nodup hnodup
      have hnext : ∀ successful fs₂ l, Proper fs₂ →
          afterPadding env header fs₂ (loop value env fuel (some successful)) = some l →
          ∀ x ∈ l, x ∈ fs₂.flatten := by
        intro successful fs₂ l hproper₂ hl x hx
        exact List.mem_of_mem_drop (afterPadding_loop_mem hproper₂ hl x hx)
      rw [hloop, payload_of_stdout rs htype, Nat.zero_add,
        readAt_whole_iff htaken hcontent hfs₁]
      by_cases hwhole : (Fragments.take r.content.length fs₁).1.length = r.content.length
      · rw [sendData_whole hcontent htaken.proper hfs₁ hwhole]
        by_cases honly : env.onlyHeader
        · rw [if_pos honly, andThen_ended]
          refine iff_of_false ?_ (fun h => by simp [honly] at h)
          intro h
          exact hcontent (List.append_eq_nil_iff.mp (Option.some.inj h).symm).1
        · rw [if_neg honly, andThen_forwarded]
          have htake := Fragments.taken_take htaken.proper r.content.length
          rw [take_content htaken.proper hfs₁, hwhole, List.take_length] at htake
          rw [map_append_eq_some_iff, Nat.zero_add,
            afterPadding_eq_iff htaken htake hheader hfs hnodup hfuel ih]
          exact ⟨fun h => ⟨by simpa using honly, hwhole, h⟩, fun h => h.2.2⟩
      · have hle := Fragments.take_length_le r.content.length fs₁
        refine iff_of_false ?_ (fun h => hwhole h.2.1)
        exact sendData_short_ne htaken.proper hcontent hfs₁ hnodup₁ (by omega) hnext _

/-! ## The first record -/

/-- The first data does not lead to its being forwarded: it names a file or another place, the client
is gone, or the status is no success. -/
def Diverted (value : α → Byte) (env : Env) (first : List α) : Prop :=
  (env.allowSendfile ∧ (env.buildHTTPResponseHeaderStruct (first.map value)).xSendfile) ∨
  (¬ env.appendOutputs ∧ (env.buildHTTPResponseHeaderStruct (first.map value)).location) ∨
  env.sendHeaderFails ∨ ¬ (env.buildHTTPResponseHeaderStruct (first.map value)).successful

/-- When a response comes through. Where nothing is forwarded there must be nothing to forward;
otherwise the first record, with the whole header, and each one after it come in one read. -/
def Reply.Comes (reply : Reply value) (env : Env) (fs : List (List α)) : Prop :=
  match reply.records with
  | [] => True
  | r :: rs =>
    if r.content = [] ∨ r.type ≠ .stdout then reply.body = []
    else ∃ m, ReadAt fs 8 r.content.length m ∧ 3 ≤ m ∧
      ((Diverted value env (r.content.take m) ∧ reply.body = []) ∨
        (¬ Diverted value env (r.content.take m) ∧ m = r.content.length ∧
          headerSize (r.content.map value) ≠ 0 ∧ Whole env fs r.encode.length rs))

section First

variable {r : Record value} {rest : List α} {fs₁ : List (List α)}
  {next : Bool → List (List α) → Option (List α)}

theorem handleHeader_short {first : List α} (h : first.length < 3) :
    handleHeader value env first = .overrun := if_pos h

theorem handleHeader_diverted {first : List α} (h : 3 ≤ first.length)
    (hdiverted : Diverted value env first) :
    handleHeader value env first = .completed ∨ handleHeader value env first = .started false [] := by
  unfold handleHeader
  unfold Diverted at hdiverted
  dsimp only
  rw [if_neg (by omega)]
  split_ifs <;> simp_all

theorem handleHeader_started {first : List α} (h : 3 ≤ first.length)
    (hdiverted : ¬ Diverted value env first) : handleHeader value env first =
      .started true (first.drop (headerSize (first.map value))) := by
  unfold handleHeader
  unfold Diverted at hdiverted
  push Not at hdiverted
  obtain ⟨hsendfile, hlocation, hsent, hsuccessful⟩ := hdiverted
  dsimp only
  rw [if_neg (by omega), if_neg (by simpa using hsendfile), if_neg (by simpa using hlocation),
    if_neg (by simpa using hsent), hsuccessful]
  rfl

theorem sendData_first (hcontent : r.content ≠ []) (hproper : Proper fs₁)
    (hfs : fs₁.flatten = r.content ++ rest) :
    sendData value env r.content.length none fs₁ =
      (handleHeader value env (Fragments.take r.content.length fs₁).1).sent
        (Fragments.take r.content.length fs₁).2 := by
  have hread := Fragments.take_ne_nil hproper (List.length_pos_iff.mpr hcontent)
    (by simp [hfs, hcontent])
  unfold sendData
  dsimp only
  rw [min_realLength, if_neg hread]

end First

theorem body_eq_append {reply : Reply value} {first tail : List α}
    (hpayload : payload reply.records = first ++ tail)
    (hsize : headerSize (first.map value) ≠ 0) :
    reply.body = first.drop (headerSize (first.map value)) ++ tail := by
  have happend := headerSize_append hsize (tail.map value)
  have hle := (headerSize_le hsize).2
  rw [List.length_map] at hle
  unfold Reply.body
  rw [hpayload, List.map_append, happend, if_neg hsize, List.drop_append_of_le_length hle]

theorem not_mem_drop_succ {x : α} {xs : List α} (h : (x :: xs).Nodup) (n : Nat) :
    x ∉ (x :: xs).drop (n + 1) :=
  fun hx => (List.nodup_cons.mp h).1 (List.mem_of_mem_drop hx)

/-- The first byte of the header is never part of the body. -/
theorem body_head_not_mem {reply : Reply value} {x : α} {xs : List α}
    (hpayload : payload reply.records = x :: xs) (hnodup : (payload reply.records).Nodup) :
    x ∉ reply.body := by
  unfold Reply.body
  split
  · exact List.not_mem_nil
  · rename_i hsize
    obtain ⟨n, hn⟩ := Nat.exists_eq_succ_of_ne_zero hsize
    rw [hn, hpayload]
    rw [hpayload] at hnodup
    exact not_mem_drop_succ hnodup n

section Whole

variable {reply : Reply value} {fs : List (List α)}

theorem Reply.comes_iff {r : Record value} {rs : List (Record value)} {m : Nat}
    (hrecords : reply.records = r :: rs) (hcontent : r.content ≠ []) (htype : r.type = .stdout)
    (hread : ReadAt fs 8 r.content.length m) (hm : 0 < m) :
    reply.Comes env fs ↔ 3 ≤ m ∧
      ((Diverted value env (r.content.take m) ∧ reply.body = []) ∨
        (¬ Diverted value env (r.content.take m) ∧ m = r.content.length ∧
          headerSize (r.content.map value) ≠ 0 ∧ Whole env fs r.encode.length rs)) := by
  unfold Comes
  rw [hrecords]
  dsimp only
  rw [if_neg (by simp [hcontent, htype])]
  constructor
  · rintro ⟨m', hread', hthree, h⟩
    obtain rfl := hread'.unique hread (by omega) hm
    exact ⟨hthree, h⟩
  · rintro ⟨hthree, h⟩
    exact ⟨m, hread, hthree, h⟩

/-- Forwarding all of the first data, when no header ends in it, forwards a piece of the header. -/
theorem first_without_end_ne {first tail : List α} (hfirst : first ≠ [])
    (hpayload : payload reply.records = first ++ tail) (hnodup : (payload reply.records).Nodup)
    (l : Option (List α)) : l.map (first ++ ·) ≠ some reply.body := by
  obtain ⟨x, xs, rfl⟩ := List.exists_cons_of_ne_nil hfirst
  intro h
  obtain ⟨m, -, hm⟩ := Option.map_eq_some_iff.mp h
  apply body_head_not_mem (hpayload.trans List.cons_append) hnodup
  rw [← hm]
  exact List.mem_cons_self

/-- The rest of a record that came in part is not made up for. -/
theorem afterPadding_short_ne {r : Record value} {fs₁ fs₂ : List (List α)} {header : FcgiHeader}
    {fuel : Nat} {first rest tail : List α} (htake : Taken fs₁ first fs₂)
    (hshort : first.length < r.content.length) (hfs : fs₁.flatten = r.content ++ rest)
    (hnodup : fs₁.flatten.Nodup) :
    afterPadding env header fs₂ (loop value env fuel (some true)) ≠
      some (r.content.drop first.length ++ tail) := by
  obtain ⟨x, xs, hx⟩ : ∃ x xs, r.content.drop first.length = x :: xs := by
    apply List.exists_cons_of_ne_nil
    rw [Ne, List.drop_eq_nil_iff]
    omega
  have hfs₂ : fs₂.flatten = x :: (xs ++ rest) := by
    rw [htake.eq_drop, hfs, List.drop_append_of_le_length hshort.le, hx, List.cons_append]
  have hnodup₂ := htake.nodup hnodup
  rw [hx, List.cons_append]
  intro h
  have hmem := afterPadding_loop_mem htake.proper h x List.mem_cons_self
  rw [hfs₂] at hmem hnodup₂
  exact not_mem_drop_succ hnodup₂ 7 hmem

theorem first_diverted {first : List α} {fs₂ : List (List α)} {header : FcgiHeader} {fuel : Nat}
    (hthree : 3 ≤ first.length) (hdiverted : Diverted value env first) :
    ((handleHeader value env first).sent fs₂).andThen (fun successful fs₂ =>
      afterPadding env header fs₂ (loop value env fuel (some successful))) = some [] := by
  rcases handleHeader_diverted hthree hdiverted with h | h
  · rw [h]
    rfl
  · rw [h, Handled.sent, andThen_forwarded]
    unfold afterPadding
    split
    · rfl
    · rw [loop_unsuccessful]
      rfl

/-- The first data, all of it up to the first cut, when it is not diverted. -/
theorem first_started_iff {r : Record value} {rs : List (Record value)} {fuel : Nat}
    {header : FcgiHeader} {first : List α} {fs₁ fs₂ : List (List α)}
    (hrecords : reply.records = r :: rs) (htype : r.type = .stdout) (htaken : Taken fs r.head fs₁)
    (htake : Taken fs₁ first fs₂) (hfirst : first = r.content.take first.length)
    (hne : first ≠ []) (hheader : header.paddingLength.toNat = r.padding.length)
    (hnodup : fs.flatten.Nodup) (hfs : fs.flatten = r.encode ++ (encode rs ++ reply.last.encode))
    (hfuel : fs.flatten.length ≤ fuel + 1) :
    (afterPadding env header fs₂ (loop value env fuel (some true))).map
        (first.drop (headerSize (first.map value)) ++ ·) = some reply.body ↔
      first.length = r.content.length ∧ headerSize (r.content.map value) ≠ 0 ∧
        Whole env fs r.encode.length rs := by
  have hle : first.length ≤ r.content.length := by
    have hlength := congrArg List.length hfirst
    rw [List.length_take] at hlength
    omega
  have hpayload : payload reply.records =
      first ++ (r.content.drop first.length ++ payload rs) := by
    rw [hrecords, payload_of_stdout rs htype, ← List.append_assoc]
    congr 1
    conv_rhs => rw [hfirst]
    rw [List.length_take, Nat.min_eq_left hle, List.take_append_drop]
  by_cases hsize : headerSize (first.map value) = 0
  · have hpayload_nodup : (payload reply.records).Nodup := by
      rw [hfs, ← List.append_assoc, ← encode_cons, ← hrecords] at hnodup
      exact (List.Nodup.of_append_left hnodup).sublist (payload_sublist _)
    rw [hsize, List.drop_zero]
    refine iff_of_false (first_without_end_ne hne hpayload hpayload_nodup _) ?_
    rintro ⟨hm, hcontent_size, -⟩
    rw [hm, List.take_length] at hfirst
    rw [hfirst] at hsize
    exact hcontent_size hsize
  · rw [body_eq_append hpayload hsize, map_append_eq_some_iff]
    by_cases hm : first.length = r.content.length
    · rw [hm, List.take_length] at hfirst
      subst hfirst
      rw [List.drop_length, List.nil_append,
        afterPadding_eq_iff htaken htake hheader hfs hnodup hfuel
          (loop_success_iff reply.last_type)]
      exact ⟨fun h => ⟨rfl, hsize, h⟩, fun h => h.2.2⟩
    · refine iff_of_false ?_ (fun h => hm h.1)
      exact afterPadding_short_ne htake (by omega) (flatten_head htaken hfs) (htaken.nodup hnodup)

theorem first_stdout_iff {r : Record value} {rs : List (Record value)} {fuel : Nat}
    {header : FcgiHeader} {fs₁ : List (List α)} (hrecords : reply.records = r :: rs)
    (hcontent : r.content ≠ []) (htype : r.type = .stdout) (htaken : Taken fs r.head fs₁)
    (hheader : header.paddingLength.toNat = r.padding.length) (hnodup : fs.flatten.Nodup)
    (hfs : fs.flatten = r.encode ++ (encode rs ++ reply.last.encode))
    (hfuel : fs.flatten.length ≤ fuel + 1) :
    ((sendData value env r.content.length none fs₁).andThen fun successful fs₂ =>
        afterPadding env header fs₂ (loop value env fuel (some successful))) = some reply.body ↔
      reply.Comes env fs := by
  have hfs₁ := flatten_head htaken hfs
  have hpos := List.length_pos_iff.mpr hcontent
  have hlength := congrArg List.length hfs₁
  rw [List.length_append] at hlength
  have htake := Fragments.taken_take htaken.proper r.content.length
  have hfirst := take_content htaken.proper hfs₁
  have hne := Fragments.take_ne_nil htaken.proper hpos (by simp [hfs₁, hcontent])
  have hread : ReadAt fs 8 r.content.length (Fragments.take r.content.length fs₁).1.length := by
    have := Fragments.take_readAt fs₁ (n := r.content.length) (by omega)
    rwa [htaken.readAt (List.length_pos_iff.mpr hne), r.head_length] at this
  rw [sendData_first hcontent htaken.proper hfs₁,
    Reply.comes_iff hrecords hcontent htype hread (List.length_pos_iff.mpr hne), ← hfirst]
  generalize (Fragments.take r.content.length fs₁).1 = first at *
  generalize (Fragments.take r.content.length fs₁).2 = fs₂ at *
  by_cases hthree : 3 ≤ first.length
  · by_cases hdiverted : Diverted value env first
    · rw [first_diverted hthree hdiverted]
      constructor
      · intro h
        exact ⟨hthree, Or.inl ⟨hdiverted, (Option.some.inj h).symm⟩⟩
      · rintro ⟨-, ⟨-, h⟩ | ⟨h, -⟩⟩
        · rw [h]
        · exact absurd hdiverted h
    · rw [handleHeader_started hthree hdiverted, Handled.sent, andThen_forwarded,
        first_started_iff hrecords htype htaken htake hfirst hne hheader hnodup hfs hfuel]
      simp [hthree, hdiverted]
  · rw [handleHeader_short (by omega)]
    exact iff_of_false (by simp [Handled.sent]) (fun h => hthree h.1)

/-- **Demultiplexing.** Exactly the body is forwarded if and only if the response comes through. -/
theorem send_eq_body_iff (hproper : Proper fs) (hfs : fs.flatten = reply.encode)
    (hnodup : fs.flatten.Nodup) :
    send value env fs = some reply.body ↔ reply.Comes env fs := by
  have hlast : reply.last.type ≠ .stdout := by
    rw [reply.last_type]
    decide
  unfold send
  cases hrecords : reply.records with
  | nil =>
    rw [Reply.encode, hrecords, encode, List.flatMap_nil, List.nil_append] at hfs
    have hlength := congrArg List.length hfs
    rw [reply.last.length_encode] at hlength
    have hbody : reply.body = [] := by
      unfold Reply.body
      rw [hrecords]
      rfl
    obtain ⟨fuel, hfuel⟩ : ∃ n, fs.flatten.length = n + 1 := ⟨fs.flatten.length - 1, by omega⟩
    rw [hfuel, loop_record_other hproper
      (show fs.flatten = reply.last.encode ++ [] by simpa using hfs) (Or.inr hlast), hbody]
    unfold Reply.Comes
    rw [hrecords]
    exact iff_of_true rfl trivial
  | cons r rs =>
    rw [Reply.encode, hrecords, encode_cons, List.append_assoc] at hfs
    have hlength := congrArg List.length hfs
    rw [List.length_append, r.length_encode] at hlength
    obtain ⟨fuel, hfuel⟩ : ∃ n, fs.flatten.length = n + 1 := ⟨fs.flatten.length - 1, by omega⟩
    rw [hfuel]
    by_cases hr : r.content = [] ∨ r.type ≠ .stdout
    · rw [loop_record_other hproper hfs hr, Reply.Comes, hrecords]
      dsimp only
      rw [if_pos hr]
      exact ⟨fun h => (Option.some.inj h).symm, fun h => by rw [h]⟩
    · push Not at hr
      obtain ⟨hcontent, htype⟩ := hr
      obtain ⟨fs₁, header, htaken, hheader, hloop⟩ := loop_record_stdout env fuel none
        hproper hfs hcontent htype
      rw [hloop]
      exact first_stdout_iff hrecords hcontent htype htaken hheader hnodup hfs hfuel.le

end Whole

end Reader

/-! ## The bytes of a connection, each with its place -/

section Places

variable {env : Env} {reply : Reply (Prod.fst : Byte × Nat → Byte)} {fs : List (List (Byte × Nat))}

end Places

/-- Any header is taken for that of a success. -/
def plainEnv : Env := ⟨81920, by decide, false, false, false, false, fun _ => ⟨false, false, true⟩⟩

/-- One record with a header and the body `hi`, and the end of the request. -/
def hiReply : Reply (Prod.fst : Byte × Nat → Byte) where
  records := [⟨.stdout, (headBytes 1 .stdout 0 1 10 0 0).zipIdx 0, (ascii "A: b\r\n\r\nhi").zipIdx 8, [],
    by decide, by decide, ⟨1, 0, 1, 0, by decide⟩⟩]
  last := ⟨.endRequest, (headBytes 1 .endRequest 0 1 8 0 0).zipIdx 18, (List.replicate 8 0).zipIdx 26, [],
    by decide, by decide, ⟨1, 0, 1, 0, by decide⟩⟩
  records_type := by decide
  last_type := rfl
  last_content := by decide

end MyServer.FastCgi
