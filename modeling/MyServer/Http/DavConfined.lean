import MyServer.Http.WebDav

/-!
# The WebDAV commands and the document root

The paths are glued together from texts of the request. What they do to the root
depends on these texts alone, and the level of a whole path says little about them.
-/

open MyServer.Walk MyServer.Files MyServer.Security

namespace MyServer.Http

/-! ## Steps of glued paths -/

theorem steps_stripSlash (path : Str) : steps (stripSlash path) = steps path := by
  unfold stripSlash
  split_ifs with h
  · exact steps_dropLast h
  · rfl

/-- The moves of names that are entries of directories. -/
def descend (names : List EntryName) : List (Move Str) := names.map fun n => .down n.name

theorem descend_nonneg (names : List EntryName) : ∀ m ∈ descend names, 0 ≤ m.rise := by
  unfold descend
  simp only [List.mem_map]
  rintro _ ⟨n, -, rfl⟩
  simp

theorem steps_entry (n : EntryName) : steps n.name = [.down n.name] := by
  unfold steps
  rw [moves_name n.no_slash, n.proper]
  rfl

theorem steps_append_names (path : Str) (names : List EntryName) :
    steps (path ++ names.flatMap fun n => slash :: n.name) = steps path ++ descend names := by
  induction names generalizing path with
  | nil => simp [descend]
  | cons n names ih =>
    have happ : path ++ (n :: names).flatMap (fun n => slash :: n.name) =
        (path ++ slash :: n.name) ++ names.flatMap fun n => slash :: n.name := by simp
    rw [happ, ih, steps_append_slash, steps_entry, List.append_assoc]
    rfl

theorem steps_member (root : Str) (m : Member) :
    steps (m.path root) = steps root ++ descend m.names := by
  unfold Member.path
  split_ifs with h
  · rw [h]
    simp [descend]
  · rw [steps_append_names, steps_stripSlash]

/-! ## The last name -/

theorem lastName_no_slash (path : Str) : ∀ c ∈ lastName path, isSlash c = false := by
  intro c hc
  unfold lastName at hc
  have := List.mem_takeWhile_imp (List.mem_reverse.mp hc)
  simpa using this

/-- The path up to its last name ends with a slash, if there is anything. -/
theorem exists_base (path : Str) : ∃ base, path = base ++ lastName path ∧
    (base = [] ∨ ∃ b, base = b ++ [slash]) := by
  refine ⟨(path.reverse.dropWhile fun c => !isSlash c).reverse, ?_, ?_⟩
  · unfold lastName
    rw [← List.reverse_append, List.takeWhile_append_dropWhile, List.reverse_reverse]
  · have hstop := List.head?_dropWhile_not (fun c => !isSlash c) path.reverse
    cases h : path.reverse.dropWhile fun c => !isSlash c with
    | nil => exact Or.inl rfl
    | cons c rest =>
      right
      rw [h] at hstop
      have hc : c = slash := by simpa [isSlash] using hstop
      exact ⟨rest.reverse, by rw [hc, List.reverse_cons]⟩

/-- What the path up to its last name contributes. -/
theorem exists_steps (path : Str) : ∃ base ms, path = base ++ lastName path ∧
    ∀ t, steps (base ++ t) = ms ++ steps t := by
  obtain ⟨base, hpath, rfl | ⟨b, rfl⟩⟩ := exists_base path
  · exact ⟨[], [], hpath, fun t => rfl⟩
  · refine ⟨b ++ [slash], steps b, hpath, fun t => ?_⟩
    rw [List.append_assoc]
    exact steps_append_slash b t

theorem steps_lastName (path : Str) : steps (lastName path) = proper [toMove (lastName path)] := by
  unfold steps
  rw [moves_name (lastName_no_slash path)]

/-! ## A URI behind the root -/

/-- The components that a URI adds to the root. Without a slash between them they run together,
which does no harm only where the last name of the root is no name. -/
def attached (root uri : Str) : Option Str :=
  if uri = [] ∨ uri.head? = some slash then some uri
  else if lastName root = [] ∨ lastName root = [dot] then some (lastName root ++ uri)
  else none

/-- The URI leads to places inside the root only. -/
def SafeUri (root uri : Str) : Prop := ∃ part, attached root uri = some part ∧ NeverOutnumbered part

theorem neverOutnumbered_iff (part : Str) : NeverOutnumbered part ↔ Confined (steps part) := by
  unfold NeverOutnumbered steps
  rw [← confined_iff_count, confined_proper]

theorem steps_attached {root uri part : Str} (h : attached root uri = some part) :
    steps (root ++ uri) = steps root ++ steps part := by
  unfold attached at h
  split_ifs at h with hslash hlast
  · obtain rfl := Option.some.inj h
    rcases hslash with rfl | hhead
    · rw [List.append_nil, steps_nil, List.append_nil]
    · obtain ⟨c, rest, rfl⟩ := List.exists_cons_of_ne_nil (List.ne_nil_of_mem (List.mem_of_mem_head? hhead))
      obtain rfl := Option.some.inj hhead
      rw [steps_append_slash, steps_slash_cons]
  · obtain rfl := Option.some.inj h
    obtain ⟨base, ms, hroot, hsteps⟩ := exists_steps root
    have hnone : steps (lastName root) = [] := by
      rw [steps_lastName]
      rcases hlast with hlast | hlast <;> rw [hlast] <;> rfl
    rw [hroot, List.append_assoc, hsteps, hsteps, ← hroot, hnone, List.append_nil]

/-- A name with more behind it is a name, and another one. -/
theorem toMove_glued {name : Str} (hnil : name ≠ []) (hdot : name ≠ [dot]) (c : Byte) (more : Str) :
    toMove (name ++ c :: more) = .down (name ++ c :: more) ∧
      toMove name ≠ .down (name ++ c :: more) := by
  have hlen := List.length_pos_iff.mpr hnil
  constructor
  · unfold toMove
    rw [if_neg, if_neg]
    · intro heq
      apply hdot
      obtain ⟨d, rest, rfl⟩ := List.exists_cons_of_ne_nil hnil
      rw [List.cons_append] at heq
      obtain ⟨rfl, hrest⟩ := List.cons.inj heq
      have := congrArg List.length hrest
      simp only [List.length_append, List.length_cons, List.length_nil] at this
      rw [List.eq_nil_of_length_eq_zero (by omega : rest.length = 0)]
    · rintro (heq | heq)
      · simp at heq
      · have := congrArg List.length heq
        simp only [List.length_append, List.length_cons, List.length_nil] at this
        omega
  · unfold toMove
    rw [if_neg (not_or.mpr ⟨hnil, hdot⟩)]
    split_ifs
    · simp
    · intro heq
      have := congrArg List.length (Move.down.inj heq)
      simp only [List.length_append, List.length_cons] at this
      omega

/-- Where the URI runs together with a name of the root, nothing below is inside the root. -/
theorem not_inside_of_not_attached {root uri : Str} (h : attached root uri = none)
    (below part : List (Move Str)) : steps (root ++ uri) ++ below ≠ steps root ++ part := by
  unfold attached at h
  split_ifs at h with hslash hlast
  rw [not_or] at hslash hlast
  obtain ⟨base, ms, hroot, hsteps⟩ := exists_steps root
  obtain ⟨c, rest, rfl⟩ := List.exists_cons_of_ne_nil hslash.1
  have hc : isSlash c = false := by
    unfold isSlash
    rw [decide_eq_false_iff_not]
    rintro rfl
    exact hslash.2 rfl
  -- The first component after the base is longer than the last name of the root.
  have hfirst : ((lastName root ++ c :: rest).takeWhile fun c => !isSlash c) =
      lastName root ++ c :: rest.takeWhile fun c => !isSlash c := by
    rw [List.takeWhile_append_of_pos, List.takeWhile_cons_of_pos (by simp [hc])]
    intro d hd
    simp [lastName_no_slash root d hd]
  obtain ⟨hdown, hne⟩ := toMove_glued hlast.1 hlast.2 c (rest.takeWhile fun c => !isSlash c)
  have hglued : ∃ tail, steps (lastName root ++ c :: rest) =
      .down (lastName root ++ c :: rest.takeWhile fun c => !isSlash c) :: tail := by
    unfold steps moves
    rw [splitOnP_takeWhile, hfirst, List.map_cons, hdown]
    exact ⟨_, rfl⟩
  have hlastStep : steps (lastName root) = [toMove (lastName root)] := by
    rw [steps_lastName]
    unfold toMove
    rw [if_neg (not_or.mpr hlast)]
    split_ifs <;> rfl
  obtain ⟨tail, htail⟩ := hglued
  have hrootSteps := hsteps (lastName root)
  rw [← hroot, hlastStep] at hrootSteps
  have huriSteps := hsteps (lastName root ++ c :: rest)
  rw [← List.append_assoc, ← hroot, htail] at huriSteps
  rw [hrootSteps, huriSteps]
  intro heq
  rw [List.append_assoc, List.append_assoc] at heq
  exact hne (List.cons.inj (List.append_cancel_left heq)).1.symm

/-- A place below what the URI names is inside the root exactly if the URI is safe. -/
theorem inside_below_uri {root uri path : Str} {below : List (Move Str)}
    (hpath : steps path = steps (root ++ uri) ++ below) (hbelow : ∀ m ∈ below, 0 ≤ m.rise) :
    Inside root path ↔ SafeUri root uri := by
  unfold Inside SafeUri
  rw [hpath]
  cases h : attached root uri with
  | none =>
    constructor
    · rintro ⟨part, heq, -⟩
      exact absurd heq (not_inside_of_not_attached h below part)
    · rintro ⟨part, heq, -⟩
      cases heq
  | some part =>
    rw [steps_attached h, List.append_assoc]
    constructor
    · rintro ⟨part', heq, hconfined⟩
      rw [← List.append_cancel_left heq, confined_append_of_nonneg hbelow] at hconfined
      exact ⟨part, rfl, (neverOutnumbered_iff part).mpr hconfined⟩
    · rintro ⟨part', heq, hsafe⟩
      obtain rfl := Option.some.inj heq
      exact ⟨_, rfl, (confined_append_of_nonneg hbelow).mpr ((neverOutnumbered_iff part).mp hsafe)⟩

/-! ## What the commands touch -/

section Commands

variable {env : SecurityEnv} {sys : DavSystem} {r : DavRequest}

theorem drop_lastName (path : Str) : path.drop (path.length - (lastName path).length) =
    lastName path := by
  obtain ⟨base, hpath, -⟩ := exists_base path
  have hlen := congrArg List.length hpath
  rw [List.length_append] at hlen
  have hbase : path.length - (lastName path).length = base.length := by omega
  rw [hbase]
  conv_lhs => rw [hpath]
  exact List.drop_left

/-- A member of the tree below a source, cut down to the last name of the source. -/
theorem steps_cut_member (src : Str) (m : Member) :
    steps ((m.path src).drop (src.length - (lastName src).length)) =
      steps (lastName src) ++ descend m.names := by
  obtain ⟨base, hsrc, hbase⟩ := exists_base src
  have hlen := congrArg List.length hsrc
  rw [List.length_append] at hlen
  unfold Member.path
  split_ifs with hnames
  · rw [drop_lastName, hnames]
    simp [descend]
  · unfold stripSlash
    split_ifs with hslash
    · -- The source ends with a slash, so the names follow at once.
      have hnil : lastName src = [] := by
        unfold lastName
        rw [← List.head?_reverse] at hslash
        obtain ⟨c, rest, hrev⟩ := List.exists_cons_of_ne_nil
          (List.ne_nil_of_mem (List.mem_of_mem_head? hslash))
        rw [hrev] at hslash ⊢
        obtain rfl := Option.some.inj hslash
        rfl
      obtain ⟨n, names, hcons⟩ := List.exists_cons_of_ne_nil hnames
      have hdrop : src.length - (lastName src).length = (src.dropLast ++ [slash]).length := by
        rw [hnil, List.dropLast_append_getLast? slash hslash]
        rfl
      have happ : src.dropLast ++ m.names.flatMap (fun n => slash :: n.name) =
          (src.dropLast ++ [slash]) ++ (n.name ++ names.flatMap fun n => slash :: n.name) := by
        rw [hcons]
        simp
      rw [happ, hdrop, List.drop_left, hnil, steps_append_names, steps_entry, hcons]
      rfl
    · have hdrop : src.length - (lastName src).length ≤ src.length := Nat.sub_le _ _
      rw [List.drop_append_of_le_length hdrop, drop_lastName, steps_append_names]

/-- The names of the members of a copy are below the last name of the source. -/
theorem copyDir_touched {src dest : Str} {members : List Member} :
    ∀ p ∈ (copyDir sys src dest members).touched, ∃ below : List (Move Str),
      steps p = steps dest ++ (steps (lastName src) ++ below) ∧ ∀ m ∈ below, 0 ≤ m.rise := by
  induction members with
  | nil => exact fun p hp => absurd hp List.not_mem_nil
  | cons m members ih =>
    unfold copyDir
    dsimp only
    split_ifs
    · exact ih
    · exact fun p hp => absurd hp List.not_mem_nil
    · exact fun p hp => absurd hp List.not_mem_nil
    · intro p hp
      rcases List.mem_cons.mp hp with rfl | hp
      · refine ⟨descend m.names, ?_, descend_nonneg m.names⟩
        rw [steps_append_slash, steps_cut_member]
      · exact ih p hp
    · exact ih

theorem deleteDir_touched {src : Str} {members : List Member} :
    ∀ p ∈ (deleteDir sys src members).touched, ∃ below : List (Move Str),
      steps p = steps src ++ below ∧ ∀ m ∈ below, 0 ≤ m.rise := by
  induction members with
  | nil => exact fun p hp => absurd hp List.not_mem_nil
  | cons m members ih =>
    unfold deleteDir
    dsimp only
    split_ifs
    · exact ih
    · exact fun p hp => absurd hp List.not_mem_nil
    · intro p hp
      rcases List.mem_cons.mp hp with rfl | hp
      · exact ⟨descend m.names, steps_member src m, descend_nonneg m.names⟩
      · exact ih p hp

/-- What a copy touches is the target, or is below it under the last name of the source. -/
def copiedPart (sys : DavSystem) (r : DavRequest) (part : Str) : Str :=
  match isDirectory sys.fs r.source with
  | .ok true => part ++ slash :: lastName r.source
  | _ => part

theorem copyTo_touched (part : Str) :
    ∀ p ∈ (copyTo sys r (r.target part)).touched, ∃ below : List (Move Str),
      steps p = steps r.root ++ (steps (copiedPart sys r part) ++ below) ∧
        ∀ m ∈ below, 0 ≤ m.rise := by
  unfold copyTo copiedPart
  cases isDirectory sys.fs r.source with
  | error e => exact fun p hp => absurd hp List.not_mem_nil
  | ok directory =>
    cases directory with
    | false =>
      dsimp only
      split_ifs
      · exact fun p hp => absurd hp List.not_mem_nil
      · exact fun p hp => absurd hp List.not_mem_nil
      · exact fun p hp => absurd hp List.not_mem_nil
      · intro p hp
        rw [List.mem_singleton.mp hp]
        exact ⟨[], by rw [List.append_nil]; exact steps_append_slash _ _,
          fun m hm => absurd hm List.not_mem_nil⟩
    | true =>
      dsimp only
      split_ifs
      · exact fun p hp => absurd hp List.not_mem_nil
      · intro p hp
        obtain ⟨below, hsteps, hbelow⟩ := copyDir_touched p hp
        refine ⟨below, ?_, hbelow⟩
        have htarget : steps (r.target part) = steps r.root ++ steps part := steps_append_slash _ _
        rw [hsteps, steps_stripSlash, htarget, steps_append_slash]
        simp only [List.append_assoc]

theorem copy_touched (h : (copy env sys r).touched ≠ []) : ∃ part, r.part = some part ∧
    (copy env sys r).touched = (copyTo sys r (r.target part)).touched := by
  unfold copy at h ⊢
  cases hpart : r.part with
  | none =>
    rw [hpart] at h
    split_ifs at h
    · exact absurd rfl h
    · exact absurd rfl h
  | some part =>
    rw [hpart] at h
    dsimp only at h ⊢
    split_ifs at h ⊢
    · exact absurd rfl h
    · exact absurd rfl h
    · cases hrefused : writeRefused env sys r (r.target part) with
      | some status =>
        rw [hrefused] at h
        exact absurd rfl h
      | none => exact ⟨part, rfl, rfl⟩

theorem move_touched (h : (move env sys r).touched ≠ []) : ∃ part, r.part = some part ∧
    (move env sys r).touched = [r.source, r.target part] := by
  unfold move at h ⊢
  cases hpart : r.part with
  | none =>
    rw [hpart] at h
    split_ifs at h
    · exact absurd rfl h
    · exact absurd rfl h
  | some part =>
    rw [hpart] at h
    dsimp only at h ⊢
    split_ifs at h ⊢
    · exact absurd rfl h
    · exact absurd rfl h
    · cases hrefused : writeRefused env sys r (r.target part) with
      | some status =>
        rw [hrefused] at h
        exact absurd rfl h
      | none =>
        rw [hrefused] at h
        dsimp only [moveTo] at h ⊢
        split_ifs at h ⊢
        · exact absurd rfl h
        · exact absurd rfl h
        · exact ⟨part, rfl, rfl⟩
        · exact absurd rfl h

theorem mkcol_touched (h : (mkcol sys r).touched ≠ []) :
    (mkcol sys r).touched = [r.target r.uri] := by
  generalize hanswer : mkcol sys r = answer at h ⊢
  unfold mkcol at hanswer
  split_ifs at hanswer <;> subst hanswer <;> first | rfl | exact absurd rfl h

theorem davdelete_touched :
    ∀ p ∈ (davdelete env sys r).touched, ∃ below : List (Move Str),
      steps p = steps r.source ++ below ∧ ∀ m ∈ below, 0 ≤ m.rise := by
  have hnone : ∀ p ∈ ([] : List Str), ∃ below : List (Move Str),
      steps p = steps r.source ++ below ∧ ∀ m ∈ below, 0 ≤ m.rise :=
    fun p hp => absurd hp List.not_mem_nil
  unfold davdelete
  cases writeRefused env sys r r.source with
  | some status => split_ifs <;> exact hnone
  | none =>
    cases isDirectory sys.fs r.source with
    | error e => split_ifs <;> exact hnone
    | ok directory =>
      cases directory with
      | true =>
        dsimp only
        split_ifs
        · exact hnone
        · exact hnone
        · exact hnone
        · exact deleteDir_touched
      | false =>
        split_ifs
        · exact hnone
        · exact hnone
        · exact hnone
        · intro p hp
          rw [List.mem_singleton.mp hp]
          exact ⟨[], by rw [List.append_nil], fun m hm => absurd hm List.not_mem_nil⟩
        · exact hnone

/-! ## Confinement -/

/-- A place below `part` in the root is inside exactly if `part` is never outnumbered. -/
theorem inside_below_part {root path part : Str} {below : List (Move Str)}
    (hpath : steps path = steps root ++ (steps part ++ below)) (hbelow : ∀ m ∈ below, 0 ≤ m.rise) :
    Inside root path ↔ NeverOutnumbered part := by
  unfold Inside
  rw [hpath, neverOutnumbered_iff, ← confined_append_of_nonneg hbelow]
  constructor
  · rintro ⟨part', heq, hconfined⟩
    rwa [List.append_cancel_left heq]
  · exact fun hconfined => ⟨_, rfl, hconfined⟩

theorem forall_inside_iff {root : Str} {paths : List Str} {safe : Prop} (hne : paths ≠ [])
    (h : ∀ p ∈ paths, Inside root p ↔ safe) : (∀ p ∈ paths, Inside root p) ↔ safe := by
  obtain ⟨p, rest, rfl⟩ := List.exists_cons_of_ne_nil hne
  constructor
  · exact fun hall => (h p List.mem_cons_self).mp (hall p List.mem_cons_self)
  · exact fun hsafe q hq => (h q hq).mpr hsafe

/-- The request comes to create, to overwrite or to remove something. -/
def DavAccepted (env : SecurityEnv) (sys : DavSystem) (r : DavRequest) (cmd : DavCommand) : Prop :=
  (cmd.run env sys r).touched ≠ []

def DavConfined (env : SecurityEnv) (sys : DavSystem) (r : DavRequest) (cmd : DavCommand) : Prop :=
  ∀ p ∈ (cmd.run env sys r).touched, Inside r.root p

/-- No text that is put behind the root climbs above it. -/
def DavSafe (sys : DavSystem) (r : DavRequest) : DavCommand → Prop
  | .copy => ∀ part ∈ r.part, NeverOutnumbered (copiedPart sys r part)
  | .davdelete => SafeUri r.root r.uri
  | .move => SafeUri r.root r.uri ∧ ∀ part ∈ r.part, NeverOutnumbered part
  | .mkcol => NeverOutnumbered r.uri

end Commands

/-! ## A copy beside the root -/

/-- Everybody may write. -/
def guestsWrite : SecurityEnv where
  regexMatch _ _ := none
  cryptCheck _ _ _ := false
  getParser _ _ _ := some (.element (ascii "SECURITY") []
    (.element (ascii "USER") [attr "name" "Guest", attr "password" "", attr "WRITE" "YES"] .null
      .null) .null)

/-- Files everywhere, and no locks. -/
def davFiles : DavSystem where
  fs :=
    { stat := fun p => if (ascii "/srv/sys").isPrefixOf p then .error .fileNotFound else .ok .file
      lstat := fun _ => .ok .file }
  sha1 _ := []
  opens _ := true
  creates _ := true
  removes _ := true
  renames _ _ := true
  tree _ := []

def davCopy (destination : String) : DavRequest where
  connection :=
    { td := ⟨[], [], some ⟨ascii "/srv/www", ascii "/srv/sys"⟩⟩
      auth := []
      login := []
      password := []
      requestValue := fun name =>
        if name = ascii "Destination" then some (ascii destination)
        else if name = ascii "Host" then some (ascii "h")
        else none
      vhostData := fun name =>
        if name = ascii "http.webdav.enable" then some (ascii "YES") else none
      serverData := fun _ => none
      digest := none
      checkDigest := none }
  uri := ascii "/a"
  token := SecurityToken.new ⟨false, 0⟩
  permissions := 0
  moveOverwrite := true

end MyServer.Http
