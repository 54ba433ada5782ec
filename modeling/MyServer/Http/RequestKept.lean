import MyServer.Http.RequestExact

/-!
# What the parser stores of a request

Of any request that it takes, whatever its lines are like.
-/

open MyServer.HeaderLines
open MyServer.ResponseHeader (HTTP_RESPONSE_OTHER_DIM)

namespace MyServer.RequestHeader

/-! ## What the scans have passed -/

theorem getEndLine_some {text : Str} {max n : Nat} (h : getEndLine text max = some n) :
    ∃ line c after, text = line ++ c :: after ∧ line.length = n ∧ (c = ch '\r' ∨ c = LF) ∧ OneLine line ∧
      n < max := by
  induction text generalizing max n with
  | nil => cases h
  | cons b text ih =>
    cases max with
    | zero => cases h
    | succ max =>
      rw [getEndLine] at h
      split_ifs at h with hzero hend
      · obtain rfl := Option.some.inj h
        exact ⟨[], b, text, rfl, rfl, hend, List.forall_mem_nil _, by omega⟩
      · obtain ⟨m, hm, rfl⟩ := Option.map_eq_some_iff.mp h
        obtain ⟨line, c, after, rfl, rfl, hc, hone, hlt⟩ := ih hm
        exact ⟨b :: line, c, after, rfl, rfl, hc, .cons ⟨fun h => hend (Or.inl h), fun h => hend (Or.inr h), hzero⟩
          hone, by omega⟩

theorem getCharInString_some {characters text : Str} {max n : Nat}
    (h : getCharInString characters text max = some n) :
    ∃ line c after, text = line ++ c :: after ∧ line.length = n ∧ (∀ b ∈ line, b ≠ 0 ∧ b ∉ characters) ∧
      n < max := by
  induction text generalizing max n with
  | nil => cases h
  | cons b text ih =>
    cases max with
    | zero => cases h
    | succ max =>
      rw [getCharInString] at h
      split_ifs at h with hzero hfound
      · obtain rfl := Option.some.inj h
        exact ⟨[], b, text, rfl, rfl, List.forall_mem_nil _, by omega⟩
      · obtain ⟨m, hm, rfl⟩ := Option.map_eq_some_iff.mp h
        obtain ⟨line, c, after, rfl, rfl, hline, hlt⟩ := ih hm
        exact ⟨b :: line, c, after, rfl, rfl, List.forall_mem_cons.mpr ⟨⟨hzero, hfound⟩, hline⟩, by omega⟩

theorem head_dropWhile_space (s : Str) : (s.dropWhile (· = ch ' ')).head? ≠ some (ch ' ') := by
  intro h
  have hhead := List.head?_dropWhile_not (· = ch ' ') s
  rw [h] at hhead
  simp at hhead

/-- What is at the front of a text until something that stops comes before that. -/
theorem takeWhile_take_sublist {p : Byte → Bool} {c : Byte} (hc : p c = false) (x y : Str) (n : Nat) :
    ((x ++ c :: y).take n).takeWhile p <+: x := by
  induction x generalizing n with
  | nil =>
    cases n with
    | zero => exact List.nil_prefix
    | succ n => simp [hc]
  | cons b x ih =>
    cases n with
    | zero => exact List.nil_prefix
    | succ n =>
      rw [List.cons_append, List.take_succ_cons, List.takeWhile_cons]
      split_ifs
      · exact List.cons_prefix_cons.mpr ⟨rfl, ih n⟩
      · exact List.nil_prefix

/-! ## The request line -/

theorem seekSpace_le (input token : Str) (steps : Nat) (max : Int) : seekSpace input token steps max ≤ max := by
  induction steps generalizing max with
  | zero => exact le_rfl
  | succ steps ih =>
    rw [seekSpace]
    split_ifs
    · exact le_rfl
    · exact (ih (max - 1)).trans (by omega)

theorem queryLoop_le {i : Nat} {max : Int} (fuel j : Nat) (h : ((i + j : Nat) : Int) ≤ max) :
    ((i + queryLoop i max fuel j : Nat) : Int) ≤ max := by
  induction fuel generalizing j with
  | zero => exact h
  | succ fuel ih =>
    rw [queryLoop]
    split_ifs with hturn
    · apply ih
      have := hturn.1
      push_cast at this ⊢
      omega
    · exact h

/-- What is taken for the version, when there are not too many spaces before it. -/
theorem version_kept {x after : Str} {c : Byte} (hc : c = ch '\r' ∨ c = LF) (hone : OneLine x)
    (hspaces : (((x ++ c :: after).take 10).takeWhile (· = ch ' ')).length ≠ 10) :
    let ver := (((x ++ c :: after).drop (((x ++ c :: after).take 10).takeWhile (· = ch ' ')).length).take
      HTTP_REQUEST_VER_DIM).takeWhile fun c => decide (c ≠ ch '\r' ∧ c ≠ ch '\n')
    OneLine ver ∧ ver.head? ≠ some (ch ' ') ∧ ver.length ≤ x.length := by
  have hspace : decide (c = ch ' ') = false := by rcases hc with rfl | rfl <;> decide
  have hver : decide (c ≠ ch '\r' ∧ c ≠ ch '\n') = false := by rcases hc with rfl | rfl <;> decide
  have hfront := @takeWhile_take_sublist (fun b => decide (b = ch ' ')) c hspace x after 10
  have hbehind := head_dropWhile_space ((x ++ c :: after).take 10)
  have hsplit := @List.takeWhile_append_dropWhile _ (fun b => decide (b = ch ' ')) ((x ++ c :: after).take 10)
  set spaces := ((x ++ c :: after).take 10).takeWhile (· = ch ' ') with hdef
  intro ver
  have hlt : spaces.length < 10 := by
    have hle := congrArg List.length hsplit
    rw [List.length_append, List.length_take] at hle
    omega
  obtain ⟨y, hy⟩ := hfront
  have hdrop : (x ++ c :: after).drop spaces.length = y ++ c :: after := by
    rw [← hy, List.append_assoc, List.drop_left]
  have hsub : ver <+: y := by
    change List.takeWhile _ (List.take _ (List.drop spaces.length (x ++ c :: after))) <+: y
    rw [hdrop]
    exact takeWhile_take_sublist hver y after _
  refine ⟨fun b hb => hone b (hy ▸ List.mem_append_right _ (hsub.subset hb)), fun hhead => ?_, ?_⟩
  · -- The first character behind the spaces is no space.
    obtain ⟨b, y, rfl⟩ : ∃ b y', y = b :: y' := by
      cases y with
      | nil =>
        rw [List.prefix_nil.mp hsub] at hhead
        exact absurd hhead nofun
      | cons b y => exact ⟨b, y, rfl⟩
    have hb : b = ch ' ' := by
      obtain ⟨more, hmore⟩ := hsub
      rw [← List.head?_append_of_ne_nil ver (by rintro hnil; rw [hnil] at hhead; exact absurd hhead nofun), hmore] at hhead
      simpa using hhead
    have hrest : ((x ++ c :: after).take 10).dropWhile (fun b => decide (b = ch ' ')) =
        ((x ++ c :: after).drop spaces.length).take (10 - spaces.length) := by
      have hcut := congrArg (List.drop spaces.length) hsplit
      rwa [List.drop_left, List.drop_take] at hcut
    obtain ⟨k, hk⟩ : ∃ k, 10 - spaces.length = k + 1 := ⟨9 - spaces.length, by omega⟩
    rw [hrest, hdrop, hk, List.cons_append, List.take_succ_cons, hb] at hbehind
    exact hbehind rfl
  · have hle := hsub.length_le
    have hlen := congrArg List.length hy
    rw [List.length_append] at hlen
    omega

/-- What the parts of an accepted line are like, and that the URI and the version do not overlap. -/
structure FirstLine.Kept (line : FirstLine) (tokenOff : Nat) : Prop where
  uri_ne : line.uri ≠ []
  uri_one : OneLine line.uri
  uri_seps : ∀ b ∈ line.uri, b ≠ ch '?' ∧ b ≠ ch ' '
  ver_one : OneLine line.ver
  ver_length : line.ver.length < HTTP_REQUEST_VER_DIM
  ver_first : line.ver.head? ≠ some (ch ' ')
  apart : line.ver.length < tokenOff

theorem firstLine_kept {input before l after : Str} {c : Byte} {line : FirstLine}
    (hinput : input = before ++ (l ++ c :: after)) (hc : c = ch '\r' ∨ c = LF) (hone : OneLine l)
    (h : firstLine input (l ++ c :: after) l.length = some line) : line.Kept l.length := by
  have hstop : c ≠ ch ' ' := by rcases hc with rfl | rfl <;> decide
  have hver : decide (c ≠ ch '\r' ∧ c ≠ ch '\n') = false := by rcases hc with rfl | rfl <;> decide
  have hmax : seekSpace input (l ++ c :: after) HTTP_REQUEST_VER_DIM l.length ≤ (l.length : Int) - 1 := by
    have hat : charAt input (l ++ c :: after) (l.length : Int) = c := by
      rw [charAt_token hinput, List.getD_eq_getElem?_getD, List.getElem?_append_right le_rfl, Nat.sub_self]
      rfl
    change seekSpace input (l ++ c :: after) (9 + 1) l.length ≤ _
    rw [seekSpace, if_neg (by rw [hat]; exact hstop)]
    exact seekSpace_le _ _ _ _
  unfold firstLine at h
  generalize seekSpace input (l ++ c :: after) HTTP_REQUEST_VER_DIM l.length = max at h hmax
  dsimp only at h
  have hbound : min max.toNat HTTP_REQUEST_URI_DIM ≤ max.toNat := min_le_left _ _
  rw [List.take_append_of_le_length (by omega)] at h
  set uri := (l.take (min max.toNat HTTP_REQUEST_URI_DIM)).takeWhile fun c => decide (c ≠ ch '?' ∧ c ≠ ch ' ')
    with huri
  have hsub : uri <+: l := (List.takeWhile_prefix _).trans (List.take_prefix _ l)
  have hlength : uri.length ≤ max.toNat := by
    have hle : uri.length ≤ (l.take (min max.toNat HTTP_REQUEST_URI_DIM)).length :=
      (List.takeWhile_prefix _).length_le
    rw [List.length_take] at hle
    omega
  by_cases hne : uri.length = 0
  · rw [if_pos hne] at h
    cases h
  · rw [if_neg hne] at h
    generalize hj : (if uri.length < min max.toNat HTTP_REQUEST_URI_DIM ∧
      (l ++ c :: after)[uri.length]? = some (ch '?') then
        queryLoop uri.length max HTTP_REQUEST_URI_OPTS_DIM 0 else 0) = j at h
    have hplace : ((uri.length + j : Nat) : Int) ≤ max := by
      rw [← hj]
      split_ifs
      · exact queryLoop_le _ _ (by omega)
      · omega
    have hdrop : (l ++ c :: after).drop (uri.length + j + 1) = l.drop (uri.length + j + 1) ++ c :: after :=
      List.drop_append_of_le_length (by omega)
    rw [hdrop] at h
    by_cases hspaces : (((l.drop (uri.length + j + 1) ++ c :: after).take 10).takeWhile (· = ch ' ')).length = 10
    · rw [if_pos hspaces] at h
      cases h
    · rw [if_neg hspaces] at h
      obtain ⟨hverOne, hverFirst, hverLength⟩ := version_kept hc
        (fun b hb => hone b ((List.drop_suffix _ l).subset hb)) hspaces
      split_ifs at h with hlong
      obtain rfl := Option.some.inj h
      refine ⟨?_, ?_, ?_, hverOne, ?_, hverFirst, ?_⟩
      · exact fun hnil => hne (List.length_eq_zero_iff.mpr hnil)
      · exact fun b hb => hone b (hsub.subset hb)
      · intro b hb
        simpa using List.mem_takeWhile_imp hb
      · refine lt_of_le_of_ne ?_ hlong
        exact (List.takeWhile_prefix _).length_le.trans (List.length_take_le _ _)
      · rw [List.length_drop] at hverLength
        exact lt_of_le_of_lt hverLength (by omega)

/-! ## The fields -/

/-- A name that the parser stores. -/
structure IsKey (key : Str) : Prop where
  zero : (0 : Byte) ∉ key
  colon : ch ':' ∉ key
  first : key.head? ≠ some (ch '\r')
  lower : key.map toLower = key
  length : key.length ≤ 95
  authorization : caseEq key (ascii "Authorization") = false
  contentLength : caseEq key (ascii "Content-length") = false
  range : caseEq key (ascii "Range") = false

structure IsValue (value : Str) : Prop where
  one : OneLine value
  trimmed : value.head? ≠ some (ch ' ')

/-- What the parser has stored can be written. -/
structure Kept (request : HttpRequestHeader) : Prop where
  cmd : ∀ b ∈ request.cmd, b ≠ 0 ∧ b ∉ ascii ": ,\t\n\r"
  cmd_length : request.cmd.length < HTTP_REQUEST_CMD_DIM
  uri_one : OneLine request.uri
  uri_seps : ∀ b ∈ request.uri, b ≠ ch '?' ∧ b ≠ ch ' '
  ver_one : OneLine request.ver
  ver_length : request.ver.length < HTTP_REQUEST_VER_DIM
  ver_first : request.ver.head? ≠ some (ch ' ')
  length : IsValue request.contentLength
  length_length : request.contentLength.length < HTTP_REQUEST_CONTENT_LENGTH_DIM
  other : ∀ n v, request.other n = some v → IsKey n ∧ IsValue v ∧ v.length ≤ HTTP_RESPONSE_OTHER_DIM
  range : request.rangeType = [] → request.range = ⟨0, 0⟩

/-- The same but for what the fields give. -/
structure SameFirst (a b : HttpRequestHeader) : Prop where
  cmd : a.cmd = b.cmd
  uri : a.uri = b.uri
  uriOpts : a.uriOpts = b.uriOpts
  ver : a.ver = b.ver

theorem isValue_nil : IsValue [] := ⟨List.forall_mem_nil _, by simp⟩

theorem IsValue.front {token : Str} (h : token.head? ≠ some (ch ' ')) {line : Str} (hline : OneLine line)
    {n : Nat} (hn : token.take n <+: line) : IsValue (token.take n) where
  one b hb := hline b (hn.subset hb)
  trimmed hhead := by
    cases token with
    | nil => exact absurd hhead (by simp)
    | cons b token =>
      cases n with
      | zero => exact absurd hhead nofun
      | succ n => exact h hhead

theorem IsValue.append {old value : Str} (hold : IsValue old) (hvalue : OneLine value) :
    IsValue (old ++ ascii ", " ++ value) where
  one := (hold.one.append (by decide)).append hvalue
  trimmed := by
    cases old with
    | nil => exact fun h => absurd h (by simp [ascii]; decide)
    | cons c old => exact hold.trimmed

theorem IsKey.of_command {command : Str} (hzero : (0 : Byte) ∉ command) (hcolon : ch ':' ∉ command)
    (hfirst : command.head? ≠ some (ch '\r')) (hlength : command.length ≤ 95)
    (hauth : ¬ caseEq command (ascii "Authorization") = true)
    (hcontent : ¬ caseEq command (ascii "Content-length") = true)
    (hrange : ¬ caseEq command (ascii "Range") = true) : IsKey (command.map toLower) where
  zero := zero_notMem_lower hzero
  colon hmem := by
    obtain ⟨b, hb, hlower⟩ := List.mem_map.mp hmem
    exact hcolon (eq_of_toLower (by decide) hlower ▸ hb)
  first hhead := by
    cases command with
    | nil => exact absurd hhead nofun
    | cons b command =>
      have hb : toLower b = ch '\r' := by simpa using hhead
      exact hfirst (by rw [eq_of_toLower (by decide) hb]; rfl)
  lower := by
    rw [List.map_map]
    exact List.map_congr_left fun b _ => toLower_toLower b
  length := by rwa [List.length_map]
  authorization := by rw [caseEq_lower hzero]; exact Bool.eq_false_iff.mpr hauth
  contentLength := by rw [caseEq_lower hzero]; exact Bool.eq_false_iff.mpr hcontent
  range := by rw [caseEq_lower hzero]; exact Bool.eq_false_iff.mpr hrange

theorem Kept.store {request stored : HttpRequestHeader} (h : Kept request) {command token : Str} {tokenOff : Nat}
    (hkey : IsKey (command.map toLower)) (htoken : token.head? ≠ some (ch ' '))
    (hone : OneLine (token.take tokenOff)) (hstore : request.store command token tokenOff = some stored) :
    Kept stored := by
  have hfront : ∀ n, token.take (min n tokenOff) <+: token.take tokenOff := by
    intro n
    rw [← List.take_take]
    exact List.take_prefix n _
  unfold HttpRequestHeader.store at hstore
  dsimp only at hstore
  cases hold : request.other (command.map toLower) with
  | none =>
    rw [hold] at hstore
    obtain rfl := Option.some.inj hstore
    refine { h with other := fun n v hv => ?_ }
    dsimp only at hv
    split_ifs at hv with hn
    · obtain rfl := Option.some.inj hv
      subst hn
      exact ⟨hkey, .front htoken hone (hfront _), (List.length_take_le _ _).trans (min_le_left _ _)⟩
    · exact h.other n v hv
  | some old =>
    rw [hold] at hstore
    dsimp only at hstore
    split_ifs at hstore with hlong
    obtain rfl := Option.some.inj hstore
    refine { h with other := fun n v hv => ?_ }
    dsimp only at hv
    split_ifs at hv with hn
    · obtain rfl := Option.some.inj hv
      subst hn
      refine ⟨hkey, (h.other _ old hold).2.1.append fun b hb => hone b ((hfront _).subset hb), ?_⟩
      have hle := List.length_take_le
        (min (HTTP_RESPONSE_OTHER_DIM - (old ++ ascii ", ").length) tokenOff) token
      rw [List.length_append]
      omega
    · exact h.other n v hv

theorem rangeType_ne {token : Str} {x : Str × HttpRange × Nat} (h : readReqRangeLine token = .ok x) : x.1 ≠ [] := by
  unfold readReqRangeLine at h
  cases hend : getEndLine token (HTTP_REQUEST_RANGE_TYPE_DIM + 30) with
  | none =>
    rw [hend] at h
    exact absurd h nofun
  | some lenOut =>
    rw [hend] at h
    dsimp only at h
    cases hbounds : rangeBounds (rangeFields token).2.1 (rangeFields token).2.2 with
    | error code =>
      rw [hbounds] at h
      exact absurd h nofun
    | ok range =>
      rw [hbounds] at h
      obtain rfl := Except.ok.inj h
      cases token with
      | nil => exact absurd hend nofun
      | cons c token =>
        change (readField _ (14 + 1) (c :: token)).1.map _ ≠ []
        rw [readField]
        split_ifs <;> simp

/-- A line keeps what is kept, and the request line's parts. -/
theorem readLine_kept {maxTotchars tokenOff tokenOff' : Nat} {token command : Str}
    {request request' : HttpRequestHeader} {connection connection' : Connection} (h : Kept request)
    (hzero : (0 : Byte) ∉ command) (hcolon : ch ':' ∉ command) (hfirst : command.head? ≠ some (ch '\r'))
    (hlength : command.length ≤ 95) (htoken : token.head? ≠ some (ch ' '))
    (hline : readLine maxTotchars token command tokenOff request connection = .ok request' connection' tokenOff') :
    Kept request' ∧ SameFirst request' request := by
  have htake : ∀ {max n}, getEndLine token max = some n → OneLine (token.take n) ∧ (token.take n).length < max := by
    intro max n hend
    obtain ⟨line, c, after, rfl, rfl, -, hone, hlt⟩ := getEndLine_some hend
    rw [List.take_left]
    exact ⟨hone, hlt⟩
  unfold readLine at hline
  by_cases hauth : caseEq command (ascii "Authorization") = true
  · rw [if_pos hauth] at hline
    split at hline
    · exact absurd hline nofun
    · exact absurd hline nofun
    · obtain ⟨rfl, -, -⟩ := Line.ok.inj hline
      exact ⟨{ h with }, ⟨rfl, rfl, rfl, rfl⟩⟩
  · rw [if_neg hauth] at hline
    by_cases hcontent : caseEq command (ascii "Content-length") = true
    · rw [if_pos hcontent] at hline
      split at hline
      · exact absurd hline nofun
      · rename_i n hend
        obtain ⟨rfl, -, -⟩ := Line.ok.inj hline
        obtain ⟨hone, hlt⟩ := htake hend
        exact ⟨{ h with length := .front htoken hone List.prefix_rfl, length_length := hlt }, ⟨rfl, rfl, rfl, rfl⟩⟩
    · rw [if_neg hcontent] at hline
      by_cases hrange : caseEq command (ascii "Range") = true
      · rw [if_pos hrange] at hline
        split at hline
        · exact absurd hline nofun
        · rename_i hread
          obtain ⟨rfl, -, -⟩ := Line.ok.inj hline
          exact ⟨{ h with range := fun hnil => absurd hnil (rangeType_ne hread) }, ⟨rfl, rfl, rfl, rfl⟩⟩
      · rw [if_neg hrange] at hline
        split at hline
        · exact absurd hline nofun
        · rename_i n hend
          split at hline
          · exact absurd hline nofun
          · rename_i stored hstore
            obtain ⟨rfl, -, -⟩ := Line.ok.inj hline
            refine ⟨h.store (.of_command hzero hcolon hfirst hlength hauth hcontent hrange) htoken (htake hend).1
              hstore, ?_⟩
            unfold HttpRequestHeader.store at hstore
            dsimp only at hstore
            split at hstore
            · split_ifs at hstore
              obtain rfl := Option.some.inj hstore
              exact ⟨rfl, rfl, rfl, rfl⟩
            · obtain rfl := Option.some.inj hstore
              exact ⟨rfl, rfl, rfl, rfl⟩

/-! ## The run -/

theorem SameFirst.trans {a b c : HttpRequestHeader} (hab : SameFirst a b) (hbc : SameFirst b c) : SameFirst a c :=
  ⟨hab.cmd.trans hbc.cmd, hab.uri.trans hbc.uri, hab.uriOpts.trans hbc.uriOpts, hab.ver.trans hbc.ver⟩

theorem parseLoop_kept {input token : Str} {maxTotchars fuel n : Nat} {request result : HttpRequestHeader}
    {connection connection' : Connection} (h : Kept request) (hfirst : token.head? ≠ some (ch '\r'))
    (hrun : parseLoop input maxTotchars fuel false token (getCharInString (ascii ":") token maxTotchars) request
      connection = .ok n result connection') : Kept result ∧ SameFirst result request := by
  induction fuel generalizing token request connection with
  | zero =>
    obtain ⟨-, rfl, -⟩ := Parsed.ok.inj hrun
    exact ⟨h, rfl, rfl, rfl, rfl⟩
  | succ fuel ih =>
    cases hname : getCharInString (ascii ":") token maxTotchars with
    | none =>
      rw [hname] at hrun
      cases hrun
    | some tokenOff =>
      obtain ⟨name, c, after, htoken, rfl, hclean, -⟩ := getCharInString_some hname
      have hsub : token.take (min 95 name.length) <+: name := by
        rw [← List.take_take, htoken, List.take_left]
        exact List.take_prefix 95 name
      have hzero : (0 : Byte) ∉ token.take (min 95 name.length) := fun hmem => (hclean 0 (hsub.subset hmem)).1 rfl
      have hcolon : ch ':' ∉ token.take (min 95 name.length) := fun hmem =>
        (hclean _ (hsub.subset hmem)).2 (by decide)
      have hhead : (token.take (min 95 name.length)).head? ≠ some (ch '\r') := by
        intro hhead
        obtain ⟨more, hmore⟩ := List.take_prefix (min 95 name.length) token
        have hne : token.take (min 95 name.length) ≠ [] := by
          rintro hnil
          rw [hnil] at hhead
          cases hhead
        rw [← List.head?_append_of_ne_nil _ hne, hmore] at hhead
        exact hfirst hhead
      have hlength : (token.take (min 95 name.length)).length ≤ 95 :=
        (List.length_take_le _ _).trans (min_le_left _ _)
      rw [hname, parseLoop] at hrun
      simp only [Bool.false_eq_true, if_false] at hrun
      split at hrun
      · cases hrun
      · cases hrun
      · rename_i next connection₁ tokenOff' hline
        obtain ⟨hkept, hsame⟩ := readLine_kept h hzero hcolon hhead hlength (head_dropWhile_space _) hline
        split_ifs at hrun with hgo
        · obtain ⟨hkept', hsame'⟩ := ih hkept hgo.2 hrun
          exact ⟨hkept', hsame'.trans hsame⟩
        · obtain ⟨-, rfl, -⟩ := Parsed.ok.inj hrun
          exact ⟨hkept, hsame⟩

theorem behindName_suffix (input : Str) (tokenOff : Nat) : behindName input tokenOff <:+ input := by
  unfold behindName
  dsimp only
  split_ifs
  · exact (List.dropWhile_suffix _).trans ((List.tail_suffix _).trans (List.drop_suffix _ _))
  · exact (List.dropWhile_suffix _).trans (List.drop_suffix _ _)

theorem parts_kept {input : Str} {tokenOff lineOff max : Nat} {line : FirstLine}
    (hend : getEndLine (behindName input tokenOff) max = some lineOff)
    (hparts : firstLine input (behindName input tokenOff) lineOff = some line) : line.Kept lineOff := by
  obtain ⟨l, c, after, hsplit, hlength, hc, hone, -⟩ := getEndLine_some hend
  obtain ⟨before, hbefore⟩ := behindName_suffix input tokenOff
  rw [hsplit] at hbefore hparts
  rw [← hlength] at hparts ⊢
  exact firstLine_kept hbefore.symm hc hone hparts

/-- What the request line of an accepted request was taken apart into. -/
structure Accepted (input : Str) (result : HttpRequestHeader) where
  tokenOff : Nat
  lineOff : Nat
  line : FirstLine
  method : getCharInString (ascii ": ,\t\n\r") input HTTP_REQUEST_CMD_DIM = some tokenOff
  ends : getEndLine (behindName input tokenOff) (HTTP_REQUEST_VER_DIM + HTTP_REQUEST_URI_DIM + 10) = some lineOff
  parts : firstLine input (behindName input tokenOff) lineOff = some line
  cmd : result.cmd = input.take tokenOff
  uri : result.uri = trimRight line.uri (ascii " /")
  uriOpts : result.uriOpts = trim line.uriOpts (ascii " ")
  ver : result.ver = line.ver

theorem accepted_of_build {input : Str} {inputSize n : Nat} {result : HttpRequestHeader}
    {connection connection' : Connection}
    (h : buildHTTPRequestHeaderStruct input inputSize .free connection = .ok n result connection') :
    ∃ _ : Accepted input result, Kept result := by
  unfold buildHTTPRequestHeaderStruct at h
  cases hvalid : validHTTPRequest (memory input fun _ => 0) inputSize with
  | incomplete => rw [hvalid] at h; cases h
  | error code => rw [hvalid] at h; cases h
  | valid maxTotchars =>
    rw [hvalid] at h
    dsimp only at h
    cases hmethod : getCharInString (ascii ": ,\t\n\r") input HTTP_REQUEST_CMD_DIM with
    | none => rw [hmethod] at h; cases h
    | some tokenOff =>
      obtain ⟨cmd, c, after, hinput, hcmd, hclean, hlt⟩ := getCharInString_some hmethod
      have hdim : HTTP_REQUEST_CMD_DIM = 16 := rfl
      have hcommand : (input.take (min 95 tokenOff)).take (min HTTP_REQUEST_CMD_DIM tokenOff) =
          input.take tokenOff := by
        have hmin : min 95 tokenOff = tokenOff := Nat.min_eq_right (by omega)
        rw [hmin, Nat.min_eq_right hlt.le, List.take_take, Nat.min_self]
      rw [hmethod] at h
      dsimp only at h
      rw [parseLoop] at h
      dsimp only at h
      rw [if_pos rfl] at h
      unfold readFirst at h
      rw [hcommand] at h
      cases hend : getEndLine (behindName input tokenOff) (HTTP_REQUEST_VER_DIM + HTTP_REQUEST_URI_DIM + 10) with
      | none => rw [hend] at h; cases h
      | some lineOff =>
        have hver : HTTP_REQUEST_VER_DIM = 10 := rfl
        obtain ⟨-, -, -, -, -, -, -, hlt'⟩ := getEndLine_some hend
        rw [hend] at h
        dsimp only at h
        rw [if_neg (by omega)] at h
        cases hparts : firstLine input (behindName input tokenOff) lineOff with
        | none => rw [hparts] at h; cases h
        | some line =>
          rw [hparts] at h
          dsimp only at h
          set request := HttpRequestHeader.first { HttpRequestHeader.free with cmd := input.take tokenOff } line
            with hrequest
          have hline := parts_kept hend hparts
          have huri : ∀ b ∈ trimRight line.uri (ascii " /"), b ∈ line.uri := fun b hb =>
            (List.rdropWhile_prefix _ _).subset hb
          have hver' : request.ver = line.ver := by
            change (if line.ver = [] then [] else line.ver) = line.ver
            split_ifs with hnil
            · exact hnil.symm
            · rfl
          have hkept : Kept request := by
            refine ⟨?_, ?_, ?_, ?_, ?_, ?_, ?_, isValue_nil, Nat.zero_lt_succ 11, fun n v hv => ?_, fun _ => rfl⟩
            · change ∀ b ∈ input.take tokenOff, _
              rw [hinput, ← hcmd, List.take_left]
              exact hclean
            · change (input.take tokenOff).length < _
              exact (List.length_take_le _ _).trans_lt hlt
            · exact fun b hb => hline.uri_one b (huri b hb)
            · exact fun b hb => hline.uri_seps b (huri b hb)
            · rw [hver']
              exact hline.ver_one
            · rw [hver']
              exact hline.ver_length
            · rw [hver']
              exact hline.ver_first
            · cases hv
          have hboth : Kept result ∧ SameFirst result request := by
            split_ifs at h with hgo
            · exact parseLoop_kept hkept hgo.2 h
            · obtain ⟨-, rfl, -⟩ := Parsed.ok.inj h
              exact ⟨hkept, rfl, rfl, rfl, rfl⟩
          exact ⟨⟨tokenOff, lineOff, line, hmethod, hend, hparts, hboth.2.cmd, hboth.2.uri, hboth.2.uriOpts,
            hboth.2.ver.trans hver'⟩, hboth.1⟩

end MyServer.RequestHeader
