import MyServer.Conf.IpRange

/-!
# Which texts are ranges of addresses

What `IpRange::RangeFactory` takes for a range (ip.cpp), against `x.x.x.x`, `x.x.x.x/y` and `x.x.x.x-y.y.y.y`.
Only the end of the streams is looked at, and not whether something was extracted.
-/

open MyServer.IStringStream

namespace MyServer.Ip

def Digits (t : Str) : Prop := ∀ b ∈ t, isDigit b = true

def Blank (t : Str) : Prop := ∀ b ∈ t, isSpace b = true

/-! ## The grammar -/

structure IsNumber (most : Nat) (t : Str) : Prop where
  ne_nil : t ≠ []
  digits : Digits t
  le : leadingNumber t ≤ most

def IsAddress (t : Str) : Prop :=
  ∃ a b c d, IsNumber 255 a ∧ IsNumber 255 b ∧ IsNumber 255 c ∧ IsNumber 255 d ∧
    t = a ++ ch '.' :: (b ++ ch '.' :: (c ++ ch '.' :: d))

def Grammar (t : Str) : Prop :=
  IsAddress t ∨ (∃ a n, IsAddress a ∧ IsNumber 32 n ∧ t = a ++ ch '/' :: n) ∨
    ∃ s e, IsAddress s ∧ IsAddress e ∧ t = s ++ ch '-' :: e

/-! ## What is read -/

def IsSign (s : Str) : Prop := s = [] ∨ s = [ch '+'] ∨ s = [ch '-']

/-- An `int` has room for it. -/
def Fits (s d : Str) : Prop := d ≠ [] ∧ leadingNumber d ≤ if s = [ch '-'] then 2 ^ 31 else 2 ^ 31 - 1

/-- A number, or the beginning of one, at which the text ends. -/
def EndsInt (t : Str) : Prop := ∃ w s d, Blank w ∧ IsSign s ∧ Digits d ∧ t = w ++ (s ++ d)

/-- Also with white space behind the number. -/
def Ends (t : Str) : Prop :=
  EndsInt t ∨ ∃ w s d w', Blank w ∧ IsSign s ∧ Digits d ∧ Fits s d ∧ Blank w' ∧ t = w ++ (s ++ (d ++ w'))

/-- A number and any separator, with white space around the number. -/
def Goes (t : Str) (c : Byte) (t' : Str) : Prop :=
  ∃ w s d w', Blank w ∧ IsSign s ∧ Digits d ∧ Fits s d ∧ Blank w' ∧ isSpace c = false ∧
    (w' = [] → isDigit c = false) ∧ t = w ++ (s ++ (d ++ (w' ++ c :: t')))

/-- At most `k` numbers to the end of the text, or `k` of them, a slash and one more. -/
def Reads : Nat → Byte → Str → Prop
  | 0, c, t => c = ch '/' ∧ EndsInt t
  | k + 1, _, t => Ends t ∨ ∃ c t', Goes t c t' ∧ Reads k c t'

/-- Two texts that end in the same round. -/
def ReadsTwo : Nat → Str → Str → Prop
  | 0, _, _ => False
  | k + 1, s, e => (Ends s ∧ Ends e) ∨ ∃ c s' d e', Goes s c s' ∧ Goes e d e' ∧ ReadsTwo k s' e'

def Readable (t : Str) : Prop :=
  if ch '-' ∈ t then ReadsTwo 4 (t.takeWhile (· ≠ ch '-')) (t.dropWhile (· ≠ ch '-')).tail else Reads 4 0 t

/-! ## One extraction -/

section

variable {t u w s d rest : Str}

theorem dropWhile_blank (hw : Blank w) (hu : ∀ b ∈ u.head?, isSpace b = false) : (w ++ u).dropWhile isSpace = u := by
  rw [List.dropWhile_append_of_pos hw]
  cases u with
  | nil => rfl
  | cons b u => exact List.dropWhile_cons_of_neg (by simp [hu b rfl])

theorem sentry_blank (hw : Blank w) (hu : ∀ b ∈ u.head?, isSpace b = false) :
    (ofText (w ++ u)).sentry = if u = [] then ⟨[], true, true⟩ else ofText u := by
  have hskip := dropWhile_blank hw hu
  simp [sentry, good, ofText, hskip]

theorem exists_blank (t : Str) : ∃ w u, Blank w ∧ (∀ b ∈ u.head?, isSpace b = false) ∧ t = w ++ u := by
  refine ⟨t.takeWhile isSpace, t.dropWhile isSpace, fun b hb => List.mem_takeWhile_imp hb, fun b hb => ?_,
    List.takeWhile_append_dropWhile.symm⟩
  have hhead := List.head?_dropWhile_not isSpace t
  rw [Option.mem_def.mp hb] at hhead
  simpa using hhead

/-- Whether a number is read, and where. -/
theorem getDigits_stream {negative : Bool} (hd : Digits d) (hrest : ∀ b ∈ rest.head?, isDigit b = false) :
    (getDigits negative (d ++ rest)).1.rest = rest ∧
      ((getDigits negative (d ++ rest)).1.eofbit = true ↔ rest = []) ∧
      ((getDigits negative (d ++ rest)).1.failbit = false ↔
        d ≠ [] ∧ leadingNumber d ≤ if negative then 2 ^ 31 else 2 ^ 31 - 1) := by
  unfold getDigits
  rw [takeWhile_digits hd hrest, dropWhile_digits hd hrest, leadingNumber_append hd hrest]
  dsimp only
  unfold intMin intMax
  cases negative <;> split_ifs <;> simp_all <;> omega

theorem getInt_sign (hs : IsSign s) (hsign : s = [] → u.head? ≠ some (ch '-') ∧ u.head? ≠ some (ch '+')) :
    getInt (s ++ u) = getDigits (decide (s = [ch '-'])) u := by
  rcases hs with rfl | rfl | rfl
  · obtain ⟨hminus, hplus⟩ := hsign rfl
    rw [getInt, List.nil_append, if_neg hminus, if_neg hplus]
    rfl
  · rfl
  · rfl

theorem sign_not_space (hs : IsSign s) : ∀ b ∈ s, isSpace b = false ∧ isDigit b = false := by
  rcases hs with rfl | rfl | rfl
  · exact nofun
  · simp only [List.mem_singleton, forall_eq]
    decide
  · simp only [List.mem_singleton, forall_eq]
    decide

/-- White space, a sign and digits, each as long as can be, and what is behind them. -/
structure Parts (t w s d rest : Str) : Prop where
  blank : Blank w
  sign : IsSign s
  digits : Digits d
  behind : ∀ b ∈ rest.head?, isDigit b = false
  front : s = [] → d = [] → ∀ b ∈ rest.head?, isSpace b = false ∧ b ≠ ch '-' ∧ b ≠ ch '+'
  eq : t = w ++ (s ++ (d ++ rest))

theorem exists_parts (t : Str) : ∃ w s d rest, Parts t w s d rest := by
  obtain ⟨w, u, hw, hu, rfl⟩ := exists_blank t
  obtain ⟨s, v, hs, hv, rfl⟩ : ∃ s v, IsSign s ∧ (s = [] → ∀ b ∈ v.head?, b ≠ ch '-' ∧ b ≠ ch '+') ∧ u = s ++ v := by
    by_cases hminus : u.head? = some (ch '-')
    · obtain ⟨v, rfl⟩ := List.head?_eq_some_iff.mp hminus
      exact ⟨[ch '-'], v, Or.inr (Or.inr rfl), nofun, rfl⟩
    by_cases hplus : u.head? = some (ch '+')
    · obtain ⟨v, rfl⟩ := List.head?_eq_some_iff.mp hplus
      exact ⟨[ch '+'], v, Or.inr (Or.inl rfl), nofun, rfl⟩
    refine ⟨[], u, Or.inl rfl, fun _ b hb => ⟨?_, ?_⟩, rfl⟩
    · rintro rfl
      exact hminus hb
    · rintro rfl
      exact hplus hb
  refine ⟨w, s, v.takeWhile isDigit, v.dropWhile isDigit, hw, hs, fun b hb => List.mem_takeWhile_imp hb,
    fun b hb => ?_, fun hnil hd b hb => ?_, ?_⟩
  · have hhead := List.head?_dropWhile_not isDigit v
    rw [Option.mem_def.mp hb] at hhead
    simpa using hhead
  · subst hnil
    have hsplit := @List.takeWhile_append_dropWhile _ isDigit v
    rw [hd, List.nil_append] at hsplit
    rw [hsplit] at hb
    exact ⟨hu b hb, hv rfl b hb⟩
  · rw [List.takeWhile_append_dropWhile]

/-- What the number leaves of the stream. -/
theorem Parts.readInt (h : Parts t w s d rest) (n : Int) :
    ((ofText t).readInt n).1.rest = rest ∧ (((ofText t).readInt n).1.eofbit = true ↔ rest = []) ∧
      (((ofText t).readInt n).1.failbit = false ↔ Fits s d) := by
  have hhead : ∀ b ∈ (s ++ (d ++ rest)).head?, isSpace b = false := by
    intro b hb
    cases s with
    | nil =>
      cases d with
      | nil => exact (h.front rfl rfl b hb).1
      | cons c d' =>
        cases hb
        exact (not_space_of_digit (h.digits b List.mem_cons_self)).1
    | cons c s' =>
      cases hb
      exact (sign_not_space h.sign b List.mem_cons_self).1
  have hsign : s = [] → (d ++ rest).head? ≠ some (ch '-') ∧ (d ++ rest).head? ≠ some (ch '+') := by
    intro hnil
    cases d with
    | nil => exact ⟨fun hb => (h.front hnil rfl _ hb).2.1 rfl, fun hb => (h.front hnil rfl _ hb).2.2 rfl⟩
    | cons c d' =>
      have hc := not_space_of_digit (h.digits c List.mem_cons_self)
      exact ⟨fun hb => hc.2.1 (Option.some.inj hb), fun hb => hc.2.2 (Option.some.inj hb)⟩
  have hstream := @getDigits_stream d rest (decide (s = [ch '-'])) h.digits h.behind
  rw [← getInt_sign h.sign hsign] at hstream
  simp only [decide_eq_true_eq] at hstream
  unfold IStringStream.readInt
  rw [h.eq, sentry_blank h.blank hhead]
  by_cases hnil : s ++ (d ++ rest) = []
  · obtain ⟨-, hdigits⟩ := List.append_eq_nil_iff.mp hnil
    obtain ⟨hd, hrest⟩ := List.append_eq_nil_iff.mp hdigits
    rw [if_pos hnil, hrest]
    simp [good, Fits, hd]
  · rw [if_neg hnil]
    exact hstream

/-- The separator. -/
theorem readChar_blank (hw : Blank w) (hu : ∀ b ∈ u.head?, isSpace b = false) (c : Byte) :
    (ofText (w ++ u)).readChar c = if u = [] then (⟨[], true, true⟩, c) else (ofText u.tail, u.headD c) := by
  unfold IStringStream.readChar
  rw [sentry_blank hw hu]
  by_cases hnil : u = []
  · rw [if_pos hnil, if_pos hnil]
    rfl
  · rw [if_neg hnil, if_neg hnil]
    rfl

variable {t' : Str} {c : Byte} {n : Int} {nSep : Byte}

theorem digit_of_blank {b : Byte} (h : isSpace b = true) : isDigit b = false := by
  by_contra hdigit
  have hspace := (not_space_of_digit (Bool.eq_true_of_not_eq_false hdigit)).1
  rw [h] at hspace
  exact absurd hspace (by simp)

/-- The number and the separator of one round. -/
def extract (t : Str) (n : Int) (nSep : Byte) : IStringStream × Byte := ((ofText t).readInt n).1.readChar nSep

theorem endsInt_iff (n : Int) : EndsInt t ↔ ((ofText t).readInt n).1.eofbit = true := by
  constructor
  · rintro ⟨w, s, d, hw, hs, hd, rfl⟩
    have hparts : Parts (w ++ (s ++ d)) w s d [] := ⟨hw, hs, hd, nofun, fun _ _ => nofun, by rw [List.append_nil]⟩
    exact (hparts.readInt n).2.1.mpr rfl
  · intro heof
    obtain ⟨w, s, d, rest, h⟩ := exists_parts t
    have hrest := (h.readInt n).2.1.mp heof
    refine ⟨w, s, d, h.blank, h.sign, h.digits, ?_⟩
    rw [h.eq, hrest, List.append_nil]

theorem Parts.stream (h : Parts t w s d rest) (hne : rest ≠ []) (hfits : Fits s d) :
    ((ofText t).readInt n).1 = ofText rest := by
  obtain ⟨hrest, heof, hfail⟩ := h.readInt n
  have heof : ((ofText t).readInt n).1.eofbit = false := Bool.eq_false_of_not_eq_true fun h => hne (heof.mp h)
  have hfail := hfail.mpr hfits
  generalize ((ofText t).readInt n).1 = x at hrest heof hfail
  cases x
  simp_all [ofText]

theorem ends_eof (h : Ends t) : (extract t n nSep).1.eofbit = true := by
  rcases h with h | ⟨w, s, d, w', hw, hs, hd, hfits, hw', rfl⟩
  · rw [extract, readChar_eof ((endsInt_iff n).mp h)]
    exact (endsInt_iff n).mp h
  by_cases hnil : w' = []
  · have hend : EndsInt (w ++ (s ++ (d ++ w'))) := ⟨w, s, d, hw, hs, hd, by rw [hnil, List.append_nil]⟩
    rw [extract, readChar_eof ((endsInt_iff n).mp hend)]
    exact (endsInt_iff n).mp hend
  · have hparts : Parts (w ++ (s ++ (d ++ w'))) w s d w' := by
      refine ⟨hw, hs, hd, fun b hb => ?_, fun _ hd => absurd hd hfits.1, rfl⟩
      exact digit_of_blank (hw' b (List.mem_of_mem_head? hb))
    have hchar := @readChar_blank [] w' hw' nofun nSep
    rw [List.append_nil, if_pos rfl] at hchar
    rw [extract, hparts.stream hnil hfits, hchar]

theorem goes_next (h : Goes t c t') : extract t n nSep = (ofText t', c) := by
  obtain ⟨w, s, d, w', hw, hs, hd, hfits, hw', hspace, hdigit, rfl⟩ := h
  have hparts : Parts (w ++ (s ++ (d ++ (w' ++ c :: t')))) w s d (w' ++ c :: t') := by
    refine ⟨hw, hs, hd, fun b hb => ?_, fun _ hd => absurd hd hfits.1, rfl⟩
    cases w' with
    | nil =>
      cases hb
      exact hdigit rfl
    | cons b' w' =>
      cases hb
      exact digit_of_blank (hw' b List.mem_cons_self)
  have hchar := @readChar_blank (c :: t') w' hw' (fun b hb => by cases hb; exact hspace) nSep
  rw [if_neg (List.cons_ne_nil _ _)] at hchar
  rw [extract, hparts.stream (by simp) hfits, hchar]
  rfl

/-- A round ends the text, goes on behind a separator, or fails for good. -/
theorem extract_cases (t : Str) (n : Int) (nSep : Byte) :
    (Ends t ∧ (extract t n nSep).1.eofbit = true) ∨
      (∃ c t', Goes t c t' ∧ extract t n nSep = (ofText t', c)) ∨
      ((extract t n nSep).1.eofbit = false ∧ (extract t n nSep).1.failbit = true) := by
  obtain ⟨w, s, d, rest, h⟩ := exists_parts t
  by_cases hnil : rest = []
  · have hend : Ends t := Or.inl ((endsInt_iff n).mpr ((h.readInt n).2.1.mpr hnil))
    exact Or.inl ⟨hend, ends_eof hend⟩
  by_cases hfits : Fits s d
  · obtain ⟨w', u, hw', hu, rfl⟩ := exists_blank rest
    cases u with
    | nil =>
      rw [List.append_nil] at h
      have hend : Ends t := Or.inr ⟨w, s, d, w', h.blank, h.sign, h.digits, hfits, hw', h.eq⟩
      exact Or.inl ⟨hend, ends_eof hend⟩
    | cons c t' =>
      have hgoes : Goes t c t' := by
        refine ⟨w, s, d, w', h.blank, h.sign, h.digits, hfits, hw', hu c rfl, fun hnil => ?_, h.eq⟩
        subst hnil
        exact h.behind c rfl
      exact Or.inr (Or.inl ⟨c, t', hgoes, goes_next hgoes⟩)
  · obtain ⟨hrest, heof, hfail⟩ := h.readInt n
    have heof : ((ofText t).readInt n).1.eofbit = false := Bool.eq_false_of_not_eq_true fun h => hnil (heof.mp h)
    have hfail : ((ofText t).readInt n).1.failbit = true := Bool.eq_true_of_not_eq_false fun h => hfits (hfail.mp h)
    refine Or.inr (Or.inr ?_)
    rw [extract]
    generalize ((ofText t).readInt n).1 = x at heof hfail
    simp [IStringStream.readChar, sentry, good, heof, hfail]

theorem not_ends (h : Goes t c t') : ¬ Ends t := by
  intro hend
  have heof := @ends_eof t 0 0 hend
  rw [goes_next h] at heof
  exact absurd heof Bool.false_ne_true

theorem goes_unique {c' : Byte} {t'' : Str} (h : Goes t c t') (h' : Goes t c' t'') : c' = c ∧ t'' = t' := by
  have heq := (@goes_next _ _ _ 0 0 h').symm.trans (goes_next h)
  have hstream := congrArg (·.1.rest) heq
  exact ⟨congrArg (·.2) heq, hstream⟩

/-- Where a round fails for good, the text neither ends nor goes on. -/
theorem stuck_nowhere (heof : (extract t n nSep).1.eofbit = false) (hfail : (extract t n nSep).1.failbit = true) :
    ¬ Ends t ∧ ∀ c t', ¬ Goes t c t' := by
  constructor
  · intro hend
    rw [ends_eof hend] at heof
    exact absurd heof (by simp)
  · intro c t' hgoes
    rw [goes_next hgoes] at hfail
    exact absurd hfail Bool.false_ne_true

theorem reads_goes (h : Goes t c t') (k : Nat) : Reads (k + 1) nSep t ↔ Reads k c t' := by
  rw [Reads]
  constructor
  · rintro (hend | ⟨c', t'', hgoes', hreads⟩)
    · exact absurd hend (not_ends h)
    · obtain ⟨rfl, rfl⟩ := goes_unique h hgoes'
      exact hreads
  · exact fun hreads => Or.inr ⟨c, t', h, hreads⟩

theorem readsTwo_goes {d : Byte} {u u' : Str} (h : Goes t c t') (h' : Goes u d u') (k : Nat) :
    ReadsTwo (k + 1) t u ↔ ReadsTwo k t' u' := by
  rw [ReadsTwo]
  constructor
  · rintro (⟨hend, -⟩ | ⟨c₁, t₁, d₁, u₁, hgoes, hgoes', hreads⟩)
    · exact absurd hend (not_ends h)
    · obtain ⟨-, rfl⟩ := goes_unique h hgoes
      obtain ⟨-, rfl⟩ := goes_unique h' hgoes'
      exact hreads
  · exact fun hreads => Or.inr ⟨c, t', d, u', h, h', hreads⟩

theorem not_readsTwo {u : Str} (hends : ¬ (Ends t ∧ Ends u))
    (hgoes : (∀ c t', ¬ Goes t c t') ∨ ∀ d u', ¬ Goes u d u') (k : Nat) : ¬ ReadsTwo (k + 1) t u := by
  rw [ReadsTwo]
  rintro (hboth | ⟨c, t', d, u', hgoes₁, hgoes₂, -⟩)
  · exact hends hboth
  · rcases hgoes with hnone | hnone
    · exact hnone c t' hgoes₁
    · exact hnone d u' hgoes₂

end

/-! ## The loops -/

section

variable {r : Reading} {i : Fin 4} {is : List (Fin 4)}

/-- The stream in which the end is looked for. -/
def Reading.last (r : Reading) : IStringStream := (if r.nSep = ch '/' then r.stream.readInt 32 else (r.stream, 32)).1

theorem readInt_eof {x : IStringStream} (h : x.eofbit = true) (n : Int) : (x.readInt n).1.eofbit = true := by
  simp [IStringStream.readInt, sentry, good, h]

theorem readInt_stuck {x : IStringStream} (heof : x.eofbit = false) (hfail : x.failbit = true) (n : Int) :
    (x.readInt n).1.eofbit = false ∧ (x.readInt n).1.failbit = true := by
  simp [IStringStream.readInt, sentry, good, heof, hfail]

theorem readChar_stuck {x : IStringStream} (heof : x.eofbit = false) (hfail : x.failbit = true) (c : Byte) :
    (x.readChar c).1.eofbit = false ∧ (x.readChar c).1.failbit = true := by
  simp [IStringStream.readChar, sentry, good, heof, hfail]

theorem foldl_eof (h : r.stream.eofbit = true) (is : List (Fin 4)) : is.foldl readOctet r = r := by
  induction is with
  | nil => rfl
  | cons i is ih => rw [List.foldl_cons, readOctet, if_pos h, ih]

theorem foldl_stuck (heof : r.stream.eofbit = false) (hfail : r.stream.failbit = true) (is : List (Fin 4)) :
    (is.foldl readOctet r).stream.eofbit = false ∧ (is.foldl readOctet r).stream.failbit = true := by
  induction is generalizing r with
  | nil => exact ⟨heof, hfail⟩
  | cons i is ih =>
    obtain ⟨heof', hfail'⟩ := readInt_stuck heof hfail r.nTemp
    obtain ⟨heof'', hfail''⟩ := readChar_stuck heof' hfail' r.nSep
    have hstep : (readOctet r i).stream = ((r.stream.readInt r.nTemp).1.readChar r.nSep).1 := by
      rw [readOctet, if_neg (by simp [heof])]
    rw [List.foldl_cons]
    exact ih (hstep ▸ heof'') (hstep ▸ hfail'')

theorem Reading.last_eof (h : r.stream.eofbit = true) : r.last.eofbit = true := by
  unfold Reading.last
  split_ifs
  · exact readInt_eof h 32
  · exact h

theorem Reading.last_stuck (heof : r.stream.eofbit = false) (hfail : r.stream.failbit = true) : r.last.eofbit = false := by
  unfold Reading.last
  split_ifs
  · exact (readInt_stuck heof hfail 32).1
  · exact heof

/-- The loop over the octets, and the prefix length behind a slash. -/
theorem reads_iff (is : List (Fin 4)) (t : Str) (n : Int) (nSep : Byte) (nAddr : Octets) :
    (is.foldl readOctet ⟨.ofText t, n, nSep, nAddr⟩).last.eofbit = true ↔ Reads is.length nSep t := by
  induction is generalizing t n nSep nAddr with
  | nil =>
    rw [List.foldl_nil, Reading.last, List.length_nil, Reads]
    by_cases hslash : nSep = ch '/'
    · rw [if_pos hslash, ← endsInt_iff]
      exact ⟨fun h => ⟨hslash, h⟩, fun h => h.2⟩
    · rw [if_neg hslash]
      exact ⟨fun h => absurd h Bool.false_ne_true, fun h => absurd h.1 hslash⟩
  | cons i is ih =>
    have hstep : readOctet ⟨.ofText t, n, nSep, nAddr⟩ i = ⟨(extract t n nSep).1, ((ofText t).readInt n).2,
        (extract t n nSep).2, Function.update nAddr i (narrow ((ofText t).readInt n).2)⟩ := by
      rw [readOctet]
      exact if_neg Bool.false_ne_true
    rw [List.foldl_cons, hstep, List.length_cons]
    rcases extract_cases t n nSep with ⟨hend, heof⟩ | ⟨c, t', hgoes, hext⟩ | ⟨heof, hfail⟩
    · rw [foldl_eof heof]
      exact iff_of_true (Reading.last_eof heof) (Or.inl hend)
    · rw [hext, ih, reads_goes hgoes]
    · obtain ⟨hends, hgoes⟩ := stuck_nowhere heof hfail
      obtain ⟨heof', hfail'⟩ := @foldl_stuck ⟨_, ((ofText t).readInt n).2, (extract t n nSep).2,
        Function.update nAddr i (narrow ((ofText t).readInt n).2)⟩ heof hfail is
      refine iff_of_false (by rw [Reading.last_stuck heof' hfail']; exact Bool.false_ne_true) ?_
      rintro (hend | ⟨c, t', hgoes', -⟩)
      · exact hends hend
      · exact hgoes c t' hgoes'

theorem setAddress_iff (nAddr : Octets) (t : Str) : (setAddress nAddr t).2 = true ↔ Reads 4 0 t := by
  have hlast : (setAddress nAddr t).2 = (readAddress nAddr t).last.eofbit := by
    unfold setAddress
    dsimp only
    unfold Reading.last
    split_ifs with h <;> simp_all
  rw [hlast]
  exact reads_iff indices t 0 0 nAddr

/-! ### Two hosts -/

variable {q : ReadingTwo}

theorem foldl_two_eof (h : q.start.eofbit = true ∨ q.finish.eofbit = true) (is : List (Fin 4)) :
    is.foldl readOctets q = q := by
  induction is with
  | nil => rfl
  | cons i is ih => rw [List.foldl_cons, readOctets, if_pos h, ih]

theorem readOctets_streams (hstart : q.start.eofbit = false) (hfinish : q.finish.eofbit = false) (i : Fin 4) :
    (readOctets q i).start = ((q.start.readInt q.nTemp).1.readChar q.nSep).1 ∧
      (readOctets q i).finish = ((q.finish.readInt (q.start.readInt q.nTemp).2).1.readChar
        ((q.start.readInt q.nTemp).1.readChar q.nSep).2).1 := by
  simp [readOctets, hstart, hfinish]

/-- A stream that failed never comes to its end. -/
theorem foldl_two_stuck (h : q.start.eofbit = false ∧ q.start.failbit = true ∨
      q.finish.eofbit = false ∧ q.finish.failbit = true) (is : List (Fin 4)) :
    ¬ ((is.foldl readOctets q).start.eofbit = true ∧ (is.foldl readOctets q).finish.eofbit = true) := by
  induction is generalizing q with
  | nil =>
    rcases h with ⟨heof, -⟩ | ⟨heof, -⟩
    · exact fun hboth => absurd hboth.1 (by simp [heof])
    · exact fun hboth => absurd hboth.2 (by simp [heof])
  | cons i is ih =>
    rw [List.foldl_cons]
    by_cases hend : q.start.eofbit = true ∨ q.finish.eofbit = true
    · rw [readOctets, if_pos hend]
      exact ih h
    · obtain ⟨hs, hf⟩ := not_or.mp hend
      have hs := Bool.eq_false_of_not_eq_true hs
      have hf := Bool.eq_false_of_not_eq_true hf
      obtain ⟨hstart, hfinish⟩ := readOctets_streams hs hf i
      refine ih ?_
      rw [hstart, hfinish]
      rcases h with ⟨-, hfail⟩ | ⟨-, hfail⟩
      · obtain ⟨heof', hfail'⟩ := readInt_stuck hs hfail q.nTemp
        exact Or.inl (readChar_stuck heof' hfail' q.nSep)
      · obtain ⟨heof', hfail'⟩ := readInt_stuck hf hfail (q.start.readInt q.nTemp).2
        exact Or.inr (readChar_stuck heof' hfail' _)

theorem readsTwo_iff (is : List (Fin 4)) (s e : Str) (n : Int) (nSep : Byte) (nStart nEnd : Octets) :
    ((is.foldl readOctets ⟨.ofText s, .ofText e, n, nSep, nStart, nEnd⟩).start.eofbit = true ∧
      (is.foldl readOctets ⟨.ofText s, .ofText e, n, nSep, nStart, nEnd⟩).finish.eofbit = true) ↔
      ReadsTwo is.length s e := by
  induction is generalizing s e n nSep nStart nEnd with
  | nil => exact iff_of_false (fun h => absurd h.1 Bool.false_ne_true) id
  | cons i is ih =>
    obtain ⟨hstart, hfinish⟩ := @readOctets_streams ⟨.ofText s, .ofText e, n, nSep, nStart, nEnd⟩ rfl rfl i
    rw [List.foldl_cons, List.length_cons]
    generalize hq : readOctets ⟨.ofText s, .ofText e, n, nSep, nStart, nEnd⟩ i = q at hstart hfinish
    rcases q with ⟨start, finish, n', nSep', nStart', nEnd'⟩
    dsimp only at hstart hfinish
    have hstart : start = (extract s n nSep).1 := hstart
    have hfinish : finish = (extract e ((ofText s).readInt n).2 (extract s n nSep).2).1 := hfinish
    -- Both texts end, both go on, or the loop stops with one of them not at its end.
    rcases extract_cases s n nSep with ⟨hend, heof⟩ | ⟨c, s', hgoes, hext⟩ | ⟨heof, hfail⟩
    · rcases extract_cases e ((ofText s).readInt n).2 (extract s n nSep).2 with
        ⟨hend', heof'⟩ | ⟨d, e', hgoes', hext'⟩ | ⟨heof', hfail'⟩
      · rw [foldl_two_eof (Or.inl (hstart ▸ heof))]
        exact iff_of_true ⟨hstart ▸ heof, hfinish ▸ heof'⟩ (Or.inl ⟨hend, hend'⟩)
      · rw [foldl_two_eof (Or.inl (hstart ▸ heof))]
        refine iff_of_false (fun h => ?_) ?_
        · have hopen := h.2
          rw [hfinish, hext'] at hopen
          exact absurd hopen Bool.false_ne_true
        · exact not_readsTwo (fun h => not_ends hgoes' h.2) (Or.inl fun c s' hgoes => not_ends hgoes hend) _
      · refine iff_of_false (foldl_two_stuck (Or.inr ⟨hfinish ▸ heof', hfinish ▸ hfail'⟩) is) ?_
        obtain ⟨hends, hnone⟩ := stuck_nowhere heof' hfail'
        exact not_readsTwo (fun h => hends h.2) (Or.inr hnone) _
    · rcases extract_cases e ((ofText s).readInt n).2 (extract s n nSep).2 with
        ⟨hend', heof'⟩ | ⟨d, e', hgoes', hext'⟩ | ⟨heof', hfail'⟩
      · rw [foldl_two_eof (Or.inr (hfinish ▸ heof'))]
        refine iff_of_false (fun h => ?_) ?_
        · have hopen := h.1
          rw [hstart, hext] at hopen
          exact absurd hopen Bool.false_ne_true
        · exact not_readsTwo (fun h => not_ends hgoes h.1) (Or.inr fun d e' hgoes' => not_ends hgoes' hend') _
      · have hstart : start = ofText s' := by rw [hstart, hext]
        have hfinish : finish = ofText e' := by rw [hfinish, hext']
        rw [hstart, hfinish, ih, readsTwo_goes hgoes hgoes']
      · refine iff_of_false (foldl_two_stuck (Or.inr ⟨hfinish ▸ heof', hfinish ▸ hfail'⟩) is) ?_
        obtain ⟨hends, hnone⟩ := stuck_nowhere heof' hfail'
        exact not_readsTwo (fun h => hends h.2) (Or.inr hnone) _
    · refine iff_of_false (foldl_two_stuck (Or.inl ⟨hstart ▸ heof, hstart ▸ hfail⟩) is) ?_
      obtain ⟨hends, hnone⟩ := stuck_nowhere heof hfail
      exact not_readsTwo (fun h => hends h.1) (Or.inl hnone) _

theorem setHosts_iff (s e : Str) : (setHosts s e).2 = true ↔ ReadsTwo 4 s e := by
  refine Iff.trans ?_ (readsTwo_iff indices s e 0 0 Ipv4Range.init.nStart Ipv4Range.init.nEnd)
  unfold setHosts readHosts
  dsimp only
  split_ifs with h
  · exact iff_of_true rfl h
  · exact iff_of_false (by simp) h

end

/-! ## The factory -/

section

variable {t a b s e : Str}

/-- What the factory takes for a range. -/
theorem readable_iff (nAddr : Octets) (hne : t ≠ []) : (rangeFactory nAddr t).isSome = true ↔ Readable t := by
  have hsome : (rangeFactory nAddr t).isSome = (setRange nAddr t).2 := by
    unfold rangeFactory
    cases (setRange nAddr t).2 <;> rfl
  rw [hsome, setRange, if_neg hne, Readable]
  split_ifs
  · exact setHosts_iff _ _
  · exact setAddress_iff nAddr t

theorem IsNumber.fits {most : Nat} (h : IsNumber most a) (hmost : most < 2 ^ 31) : Fits [] a := by
  refine ⟨h.ne_nil, ?_⟩
  rw [if_neg (by simp)]
  have hle := h.le
  omega

theorem IsNumber.endsInt {most : Nat} (h : IsNumber most a) : EndsInt a :=
  ⟨[], [], a, nofun, Or.inl rfl, h.digits, rfl⟩

theorem IsNumber.goes {most : Nat} (h : IsNumber most a) (hmost : most < 2 ^ 31) {c : Byte} (hspace : isSpace c = false)
    (hdigit : isDigit c = false) (t : Str) : Goes (a ++ c :: t) c t :=
  ⟨[], [], a, [], nofun, Or.inl rfl, h.digits, h.fits hmost, nofun, hspace, fun _ => hdigit, rfl⟩

theorem dot_goes (h : IsNumber 255 a) (t : Str) : Goes (a ++ ch '.' :: t) (ch '.') t :=
  h.goes (by norm_num) (by decide) (by decide) t

theorem IsNumber.notMem {most : Nat} (h : IsNumber most a) {c : Byte} (hc : isDigit c = false) : c ∉ a := by
  intro hmem
  rw [h.digits c hmem] at hc
  exact absurd hc (by simp)

theorem IsAddress.notMem (h : IsAddress t) : ch '-' ∉ t := by
  obtain ⟨a, b, c, d, ha, hb, hc, hd, rfl⟩ := h
  have hdot : ch '-' ≠ ch '.' := by decide
  simp only [List.mem_append, List.mem_cons, not_or]
  exact ⟨ha.notMem (by decide), hdot, hb.notMem (by decide), hdot, hc.notMem (by decide), hdot, hd.notMem (by decide)⟩

theorem IsAddress.reads (h : IsAddress t) (c : Byte) : Reads 4 c t := by
  obtain ⟨a, b, c, d, ha, hb, hc, hd, rfl⟩ := h
  exact Or.inr ⟨_, _, dot_goes ha _, Or.inr ⟨_, _, dot_goes hb _, Or.inr ⟨_, _, dot_goes hc _, Or.inl (Or.inl hd.endsInt)⟩⟩⟩

theorem IsAddress.reads_slash (h : IsAddress t) {n : Str} (hn : IsNumber 32 n) (c : Byte) :
    Reads 4 c (t ++ ch '/' :: n) := by
  obtain ⟨a, b, c, d, ha, hb, hc, hd, rfl⟩ := h
  have hlast : Goes (d ++ ch '/' :: n) (ch '/') n := hd.goes (by norm_num) (by decide) (by decide) n
  simp only [List.append_assoc, List.cons_append]
  exact Or.inr ⟨_, _, dot_goes ha _, Or.inr ⟨_, _, dot_goes hb _, Or.inr ⟨_, _, dot_goes hc _,
    Or.inr ⟨_, _, hlast, rfl, hn.endsInt⟩⟩⟩⟩

theorem IsAddress.readsTwo (hs : IsAddress s) (he : IsAddress e) : ReadsTwo 4 s e := by
  obtain ⟨a, b, c, d, ha, hb, hc, hd, rfl⟩ := hs
  obtain ⟨a', b', c', d', ha', hb', hc', hd', rfl⟩ := he
  exact Or.inr ⟨_, _, _, _, dot_goes ha _, dot_goes ha' _, Or.inr ⟨_, _, _, _, dot_goes hb _, dot_goes hb' _,
    Or.inr ⟨_, _, _, _, dot_goes hc _, dot_goes hc' _, Or.inl ⟨Or.inl hd.endsInt, Or.inl hd'.endsInt⟩⟩⟩⟩

/-- All of the grammar is read. -/
theorem Grammar.readable (h : Grammar t) : Readable t := by
  unfold Readable
  rcases h with h | ⟨a, n, ha, hn, rfl⟩ | ⟨s, e, hs, he, rfl⟩
  · rw [if_neg h.notMem]
    exact h.reads 0
  · have hdash : ch '-' ∉ a ++ ch '/' :: n := by
      simp only [List.mem_append, List.mem_cons, not_or]
      exact ⟨ha.notMem, by decide, hn.notMem (by decide)⟩
    rw [if_neg hdash]
    exact ha.reads_slash hn 0
  · have hall : ∀ b ∈ s, decide (b ≠ ch '-') = true := by
      intro b hb
      rw [decide_eq_true_eq]
      rintro rfl
      exact hs.notMem hb
    rw [if_pos (by simp), List.takeWhile_append_of_pos hall, List.dropWhile_append_of_pos hall,
      List.takeWhile_cons_of_neg (by simp), List.dropWhile_cons_of_neg (by simp), List.append_nil]
    exact hs.readsTwo he

/-- **The texts of ranges.** The factory takes a text when and only when it is in the grammar, unless the text can
be read without being in it. -/
theorem rangeFactory_iff (hne : t ≠ []) :
    (∀ nAddr, (rangeFactory nAddr t).isSome = true ↔ Grammar t) ↔ (Readable t → Grammar t) := by
  constructor
  · exact fun h hread => (h fun _ => 0).mp ((readable_iff (fun _ => 0) hne).mpr hread)
  · intro h nAddr
    rw [readable_iff nAddr hne]
    exact ⟨h, Grammar.readable⟩

theorem rangeFactory_localhost : (∀ nAddr, (rangeFactory nAddr (ascii "127.0.0.1")).isSome = true ↔
    Grammar (ascii "127.0.0.1")) ↔ (Readable (ascii "127.0.0.1") → Grammar (ascii "127.0.0.1")) :=
  rangeFactory_iff (by decide)

/-- `10` is a range, three octets of which are never set. -/
theorem not_rangeFactory : ¬ ∀ t : Str, t ≠ [] → ∀ nAddr, (rangeFactory nAddr t).isSome = true ↔ Grammar t := by
  intro h
  have hten : IsNumber 255 (ascii "10") := ⟨by decide, by unfold Digits; decide, by decide⟩
  have hread : Readable (ascii "10") := by
    rw [Readable, if_neg (by decide)]
    exact Or.inl (Or.inl hten.endsInt)
  have hgrammar := (h (ascii "10") (by decide) fun _ => 0).mp ((readable_iff _ (by decide)).mpr hread)
  have haddress : ∀ t, IsAddress t → ch '.' ∈ t := by
    rintro t ⟨a, b, c, d, -, -, -, -, rfl⟩
    simp
  have hdot : ch '.' ∈ ascii "10" := by
    rcases hgrammar with hten | ⟨a, n, ha, -, heq⟩ | ⟨s, e, hs, -, heq⟩
    · exact haddress _ hten
    · rw [heq]
      exact List.mem_append_left _ (haddress a ha)
    · rw [heq]
      exact List.mem_append_left _ (haddress s hs)
  exact absurd hdot (by decide)

end

end MyServer.Ip
