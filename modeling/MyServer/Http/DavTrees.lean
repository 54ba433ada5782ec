import Mathlib.Data.Finmap
import MyServer.Http.DavConfined
import MyServer.Lib.Traversal

/-!
# What WebDAV makes of the trees on a disk

The commands go through a directory with `fts_read`, which looks into each directory when it comes to it, and change
the disk meanwhile.
-/

open MyServer.Files MyServer.Http MyServer.Traversal MyServer.Walk

namespace MyServer.DavTree

/-! ## The disk -/

inductive Entry where
  | directory
  | file (content : Str)
deriving DecidableEq

def ProperName (name : Str) : Prop := toMove name = .down name ∧ ∀ c ∈ name, isSlash c = false

instance (name : Str) : Decidable (ProperName name) := inferInstanceAs (Decidable (_ ∧ _))

/-- What there is, by the names from the bottom up. Without links. -/
structure Disk where
  things : Finmap fun _ : List Str => Entry
  closed : ∀ {name pos}, name :: pos ∈ things → things.lookup pos = some .directory
  proper : ∀ {name pos}, name :: pos ∈ things → ProperName name

namespace Disk

variable (disk : Disk)

def get (pos : List Str) : Option Entry := disk.things.lookup pos

/-- Every component is looked up in a directory. -/
def follow : List Str → List (Move Str) → Option (List Str)
  | pos, [] => some pos
  | pos, m :: moves => if disk.get pos = some .directory then follow (arrive pos [m]) moves else none

def find (path : Str) : Option (List Str) := disk.follow [] (moves isSlash path)

def nodeExists (path : Str) : Bool := ((disk.find path).bind disk.get).isSome

def read (path : Str) : Option Str :=
  match (disk.find path).bind disk.get with
  | some (.file content) => some content
  | _ => none

/-- `mkdir`, or a file that is opened for writing when there is none, and written. -/
def create (path : Str) (entry : Entry) : Option Disk :=
  match disk.find path with
  | some (name :: pos) =>
    if h : disk.get pos = some .directory ∧ disk.get (name :: pos) = none ∧ ProperName name then
      some
        { things := disk.things.insert (name :: pos) entry
          closed := by
            intro name' pos' hmem
            have hne : pos' ≠ name :: pos := by
              rintro rfl
              rw [Finmap.mem_insert] at hmem
              obtain heq | hmem := hmem
              · exact absurd (congrArg List.length (List.cons.inj heq).2) (by simp)
              · have hnone : disk.things.lookup (name :: pos) = none := h.2.1
                rw [disk.closed hmem] at hnone
                cases hnone
            rw [Finmap.lookup_insert_of_ne _ hne]
            obtain heq | hmem := Finmap.mem_insert.mp hmem
            · cases heq
              exact h.1
            · exact disk.closed hmem
          proper := by
            intro name' pos' hmem
            obtain heq | hmem := Finmap.mem_insert.mp hmem
            · cases heq
              exact h.2.2
            · exact disk.proper hmem }
    else none
  | _ => none

/-- `remove`: a file, or a directory with nothing in it. -/
def remove (path : Str) : Option Disk :=
  match disk.find path with
  | some (name :: pos) =>
    if h : (disk.get (name :: pos)).isSome ∧ ∀ q ∈ disk.things.keys, q.tail ≠ name :: pos then
      some
        { things := disk.things.erase (name :: pos)
          closed := by
            intro name' pos' hmem
            obtain ⟨-, hmem⟩ := Finmap.mem_erase.mp hmem
            have hne : pos' ≠ name :: pos := h.2 _ (Finmap.mem_keys.mpr hmem)
            rw [Finmap.lookup_erase_ne hne]
            exact disk.closed hmem
          proper := fun hmem => disk.proper (Finmap.mem_erase.mp hmem).2 }
    else none
  | _ => none

end Disk

/-- What a directory lists, in an order that is its own. -/
structure Readdir where
  names : Disk → List Str → List (EntryName × Bool)
  nodup : ∀ disk pos, ((names disk pos).map Prod.fst).Nodup
  mem_iff : ∀ {disk pos n directory}, (n, directory) ∈ names disk pos ↔
    ∃ e, disk.get (n.name :: pos) = some e ∧ (directory = true ↔ e = .directory)
  own : ∀ {disk disk' : Disk} {pos}, (∀ name, disk'.get (name :: pos) = disk.get (name :: pos)) →
    names disk' pos = names disk pos

/-! ## The commands -/

/-- `fts_info`. -/
def infoOf : Info → Nat
  | .enter => 1
  | .leaf => 8
  | .leave => 6

def memberOf (event : Event EntryName) : Member := ⟨infoOf event.info, event.names⟩

/-- Where the walk is. -/
def placeOf (top : List Str) (names : List EntryName) : List Str := (names.map (·.name)).reverse ++ top

section

variable (rd : Readdir)

def listingOf {σ : Type} (diskOf : σ → Disk) (top : List Str) (st : σ) (names : List EntryName) :
    List (EntryName × Bool) := rd.names (diskOf st) (placeOf top names)

/-- The loop of `nextMember` over the tree at `path`. -/
def walkTree {σ ρ : Type} (diskOf : σ → Disk) (path : Str) (body : Event EntryName → σ → Except ρ (σ × Bool))
    (fuel : Nat) (st : σ) : Option (Except ρ σ) :=
  ((diskOf st).find path).bind fun top =>
    loop (listingOf rd diskOf top) body fuel [.entry ((diskOf st).get top = some .directory) []] st

/-- What the loop of `copyDir` returns, or `none` for an exception, with the disk that is left. -/
def copyBody (src dest : Str) (event : Event EntryName) (disk : Disk) : Except (Option Nat × Disk) (Disk × Bool) :=
  let m := memberOf event
  if m.info = 6 then .ok (disk, false)
  else
    let srcpath := m.path src
    let finaldest := dest ++ slash :: srcpath.drop (src.length - (lastName src).length)
    if disk.nodeExists finaldest then .error (some 412, disk)
    else if m.info = 8 then
      match (disk.read srcpath).bind fun content => disk.create finaldest (.file content) with
      | none => .error (none, disk)
      | some disk => .ok (disk, false)
    else if m.info = 1 then
      match disk.create finaldest .directory with
      | none => .error (none, disk)
      | some disk => .ok (disk, false)
    else .ok (disk, false)

def copyDir (fuel : Nat) (src dest : Str) (disk : Disk) : Option (Except (Option Nat × Disk) Disk) :=
  walkTree rd id src (copyBody src dest) fuel disk

/-- `error` for an exception. -/
def deleteBody (src : Str) (event : Event EntryName) (disk : Disk) : Except Disk (Disk × Bool) :=
  let m := memberOf event
  if m.info = 1 then .ok (disk, false)
  else
    match disk.remove (m.path src) with
    | none => .error disk
    | some disk => .ok (disk, false)

def deleteDir (fuel : Nat) (src : Str) (disk : Disk) : Option (Except Disk Disk) :=
  walkTree rd id src (deleteBody src) fuel disk

/-- The responses are made by `generate`, of the path and of what `stat` has found. -/
def responseBody {R : Type} (generate : Str → Option Entry → R) (top : List Str) (path : Str) (reqDepth : Nat)
    (event : Event EntryName) (st : Disk × List R) : Except Empty ((Disk × List R) × Bool) :=
  let m := memberOf event
  if m.info = 6 then .ok (st, false)
  else if m.names.length > reqDepth then .ok (st, true)
  else
    let relPath := (m.path path).drop (path.length - 1)
    .ok ((st.1, st.2 ++ [generate relPath (st.1.get (placeOf top m.names))]), false)

/-- The children of the root of `generateResponse`. -/
def generateResponse {R : Type} (generate : Str → Option Entry → R) (fuel : Nat) (path : Str) (reqDepth : Nat)
    (disk : Disk) : Option (Except Empty (Disk × List R)) :=
  (disk.find path).bind fun top =>
    walkTree rd Prod.fst path (responseBody generate top path reqDepth) fuel (disk, [])

end

theorem infoOf_ne {info info' : Info} (h : info ≠ info') : infoOf info ≠ infoOf info' := by
  revert h
  cases info <;> cases info' <;> decide

/-! ## Paths -/

section

variable {disk disk' : Disk}

theorem Disk.follow_cons (pos : List Str) (m : Move Str) (moves : List (Move Str)) :
    disk.follow pos (m :: moves) =
      if disk.get pos = some .directory then disk.follow (arrive pos [m]) moves else none := rfl

theorem Disk.follow_append (pos : List Str) (a b : List (Move Str)) :
    disk.follow pos (a ++ b) = (disk.follow pos a).bind fun pos => disk.follow pos b := by
  induction a generalizing pos with
  | nil => rfl
  | cons m a ih =>
    rw [List.cons_append, follow_cons, follow_cons]
    split_ifs
    · exact ih _
    · rfl

/-- Where a path leads is told by its components. -/
theorem Disk.follow_eq {pos top : List Str} {moves : List (Move Str)} (h : disk.follow pos moves = some top) :
    top = arrive pos moves := by
  induction moves generalizing pos with
  | nil =>
    cases h
    rfl
  | cons m moves ih =>
    rw [follow_cons] at h
    split_ifs at h
    rw [ih h, ← arrive_append]
    rfl

theorem Disk.follow_mono {pos top : List Str} {moves : List (Move Str)} (h : disk.follow pos moves = some top)
    (hmono : ∀ q, disk.get q = some .directory → disk'.get q = some .directory) : disk'.follow pos moves = some top := by
  induction moves generalizing pos with
  | nil => exact h
  | cons m moves ih =>
    rw [follow_cons] at h ⊢
    split_ifs at h with hdir
    rw [if_pos (hmono _ hdir)]
    exact ih h

theorem Disk.find_mono {path : Str} {top : List Str} (h : disk.find path = some top)
    (hmono : ∀ q, disk.get q = some .directory → disk'.get q = some .directory) : disk'.find path = some top :=
  Disk.follow_mono h hmono

/-- Without a step up only what is above the end is looked at. -/
theorem Disk.follow_above {pos top : List Str} {moves : List (Move Str)} (h : disk.follow pos moves = some top)
    (hup : .up ∉ moves) (habove : ∀ q, q <:+ top → disk.get q = some .directory → disk'.get q = some .directory) :
    disk'.follow pos moves = some top := by
  induction moves generalizing pos with
  | nil => exact h
  | cons m moves ih =>
    have hrise : ∀ m' ∈ m :: moves, 0 ≤ Move.rise m' := by
      intro m' hm'
      cases m' with
      | up => exact absurd hm' hup
      | stay => simp
      | down name => simp
    have hsuffix : pos <:+ top := Disk.follow_eq h ▸ suffix_arrive pos hrise
    rw [follow_cons] at h ⊢
    split_ifs at h with hdir
    rw [if_pos (habove _ hsuffix hdir)]
    exact ih h (fun hmem => hup (List.mem_cons_of_mem _ hmem))

theorem Disk.get_mem {name : Str} {pos : List Str} {e : Entry} (h : disk.get (name :: pos) = some e) :
    name :: pos ∈ disk.things := Finmap.lookup_isSome.mp (by rw [← Disk.get, h]; rfl)

theorem Disk.get_parent {name : Str} {pos : List Str} {e : Entry} (h : disk.get (name :: pos) = some e) :
    disk.get pos = some .directory := disk.closed (Disk.get_mem h)

/-- Above a thing there are directories. -/
theorem Disk.get_above {below pos : List Str} {e : Entry} (h : disk.get (below ++ pos) = some e) (hne : below ≠ []) :
    disk.get pos = some .directory := by
  induction below generalizing e with
  | nil => exact absurd rfl hne
  | cons name below ih =>
    have hdir := Disk.get_parent h
    cases below with
    | nil => exact hdir
    | cons name' below => exact ih hdir (List.cons_ne_nil _ _)

theorem placeOf_append (top : List Str) (names more : List EntryName) :
    placeOf top (names ++ more) = placeOf (placeOf top names) more := by
  simp [placeOf]

theorem placeOf_snoc (top : List Str) (names : List EntryName) (n : EntryName) :
    placeOf top (names ++ [n]) = n.name :: placeOf top names := by
  simp [placeOf]

theorem EntryName.ext_name {n n' : EntryName} (h : n.name = n'.name) : n = n' := by
  cases n
  cases n'
  cases h
  rfl

theorem placeOf_inj {top : List Str} {names names' : List EntryName} (h : placeOf top names = placeOf top names') :
    names = names' := by
  have hmap : names.map (·.name) = names'.map (·.name) := by
    simpa [placeOf] using h
  exact List.map_injective_iff.mpr (fun _ _ => EntryName.ext_name) hmap

theorem moves_names (path : Str) (names : List EntryName) :
    moves isSlash (path ++ names.flatMap fun n => slash :: n.name) = moves isSlash path ++ descend names := by
  induction names generalizing path with
  | nil => simp [descend]
  | cons n names ih =>
    have happ : path ++ (n :: names).flatMap (fun n => slash :: n.name) =
        (path ++ slash :: n.name) ++ names.flatMap fun n => slash :: n.name := by simp
    rw [happ, ih, moves_append_sep _ _ _ _ (by decide), moves_name n.no_slash, n.proper, List.append_assoc]
    rfl

theorem Disk.find_names (path : Str) (names : List EntryName) :
    disk.find (path ++ names.flatMap fun n => slash :: n.name) =
      (disk.find path).bind fun pos => disk.follow pos (descend names) := by
  rw [find, moves_names, follow_append]
  rfl

/-- Down through directories. -/
theorem Disk.follow_descend {pos : List Str} {names : List EntryName}
    (h : ∀ init n more, names = init ++ n :: more → disk.get (placeOf pos init) = some .directory) :
    disk.follow pos (descend names) = some (placeOf pos names) := by
  induction names generalizing pos with
  | nil => rfl
  | cons n names ih =>
    have hhere : disk.get pos = some .directory := h [] n names rfl
    change disk.follow pos (.down n.name :: descend names) = _
    rw [follow_cons, if_pos hhere]
    refine (ih fun init n' more heq => ?_).trans (congrArg some (placeOf_append pos [n] names).symm)
    change disk.get (placeOf (placeOf pos [n]) init) = some .directory
    rw [← placeOf_append]
    exact h (n :: init) n' more (by rw [heq]; rfl)

theorem Disk.follow_to {pos : List Str} {names : List EntryName} {e : Entry}
    (h : disk.get (placeOf pos names) = some e) : disk.follow pos (descend names) = some (placeOf pos names) := by
  refine follow_descend fun init n more heq => ?_
  subst heq
  rw [placeOf_append] at h
  exact Disk.get_above h (by simp)

/-- To where something can be made. -/
theorem Disk.follow_snoc {pos : List Str} {names : List EntryName} (n : EntryName)
    (h : disk.get (placeOf pos names) = some .directory) :
    disk.follow pos (descend (names ++ [n])) = some (placeOf pos (names ++ [n])) := by
  have hlast : descend (names ++ [n]) = descend names ++ [.down n.name] := by simp [descend]
  rw [hlast, follow_append, Disk.follow_to h, Option.bind_some, follow_cons, if_pos h, placeOf_snoc]
  rfl

theorem Disk.find_stripSlash {path : Str} {pos : List Str} (h : disk.find path = some pos) :
    disk.find (stripSlash path) = some pos := by
  unfold stripSlash
  split_ifs with hlast
  · have hpath := List.dropLast_append_getLast? slash hlast
    rw [← hpath, find, moves_append_sep _ _ _ _ (by decide), follow_append] at h
    obtain ⟨pos', hpos', hstay⟩ := Option.bind_eq_some_iff.mp h
    rw [moves_nil, follow_cons] at hstay
    split_ifs at hstay
    cases hstay
    exact hpos'
  · exact h

theorem Disk.find_member {path : Str} {top : List Str} (h : disk.find path = some top) (m : Member) :
    disk.find (m.path path) = disk.follow top (descend m.names) := by
  unfold Member.path
  split_ifs with hnames
  · rw [h, hnames]
    rfl
  · rw [find_names, Disk.find_stripSlash h]
    rfl

theorem arrive_descend (pos : List Str) (names : List EntryName) : arrive pos (descend names) = placeOf pos names := by
  induction names generalizing pos with
  | nil => rfl
  | cons n names ih => exact (ih _).trans (placeOf_append pos [n] names).symm

end

/-! ## Making and removing -/

section

variable {disk disk' : Disk} {path : Str} {name : Str} {pos : List Str} {e : Entry}

theorem Disk.create_eq_some_iff : disk.create path e = some disk' ↔
    ∃ name pos, disk.find path = some (name :: pos) ∧ (disk.get pos = some .directory ∧
      disk.get (name :: pos) = none ∧ ProperName name) ∧ disk'.things = disk.things.insert (name :: pos) e := by
  unfold create
  constructor
  · intro h
    split at h
    · rename_i name pos hfind
      split_ifs at h with hfree
      cases h
      exact ⟨name, pos, hfind, hfree, rfl⟩
    · cases h
  · rintro ⟨name, pos, hfind, hfree, hthings⟩
    rw [hfind]
    dsimp only
    rw [dif_pos hfree]
    cases disk'
    cases hthings
    rfl

theorem Disk.get_insert (hthings : disk'.things = disk.things.insert (name :: pos) e) (q : List Str) :
    disk'.get q = if q = name :: pos then some e else disk.get q := by
  rw [get, hthings]
  split_ifs with hq
  · rw [hq, Finmap.lookup_insert]
  · exact Finmap.lookup_insert_of_ne _ hq

/-- What is made, where nothing was. -/
theorem Disk.create_get (hfind : disk.find path = some (name :: pos)) (hdir : disk.get pos = some .directory)
    (hfree : disk.get (name :: pos) = none) (hname : ProperName name) (e : Entry) :
    ∃ disk', disk.create path e = some disk' ∧ ∀ q, disk'.get q = if q = name :: pos then some e else disk.get q := by
  cases hmade : disk.create path e with
  | none =>
    unfold create at hmade
    rw [hfind] at hmade
    dsimp only at hmade
    rw [dif_pos ⟨hdir, hfree, hname⟩] at hmade
    cases hmade
  | some disk' =>
    obtain ⟨name', pos', hfind', -, hthings⟩ := Disk.create_eq_some_iff.mp hmade
    rw [hfind] at hfind'
    cases hfind'
    exact ⟨disk', rfl, Disk.get_insert hthings⟩

theorem Disk.remove_eq_some (h : disk.remove path = some disk') :
    ∃ name pos, disk.find path = some (name :: pos) ∧
      ∀ q, disk'.get q = if q = name :: pos then none else disk.get q := by
  unfold remove at h
  split at h
  · rename_i name pos hfind
    split_ifs at h
    cases h
    refine ⟨name, pos, hfind, fun q => ?_⟩
    rw [get]
    split_ifs with hq
    · rw [hq, Finmap.lookup_erase]
    · exact Finmap.lookup_erase_ne hq
  · cases h

theorem Disk.remove_get (hfind : disk.find path = some (name :: pos)) (hthere : (disk.get (name :: pos)).isSome)
    (hempty : ∀ name', disk.get (name' :: name :: pos) = none) :
    ∃ disk', disk.remove path = some disk' ∧ ∀ q, disk'.get q = if q = name :: pos then none else disk.get q := by
  have hkeys : ∀ q ∈ disk.things.keys, q.tail ≠ name :: pos := by
    intro q hq htail
    cases q with
    | nil => cases htail
    | cons name' pos' =>
      obtain rfl : pos' = name :: pos := htail
      have hmem := Finmap.lookup_isSome.mpr (Finmap.mem_keys.mp hq)
      have hnone : disk.things.lookup (name' :: name :: pos) = none := hempty name'
      rw [hnone] at hmem
      cases hmem
  cases hremoved : disk.remove path with
  | none =>
    unfold remove at hremoved
    rw [hfind] at hremoved
    dsimp only at hremoved
    rw [dif_pos ⟨hthere, hkeys⟩] at hremoved
    cases hremoved
  | some disk' =>
    obtain ⟨name', pos', hfind', hget⟩ := Disk.remove_eq_some hremoved
    rw [hfind] at hfind'
    cases hfind'
    exact ⟨disk', rfl, hget⟩

theorem Disk.get_proper (h : disk.get (name :: pos) = some e) : ∃ n : EntryName, n.name = name := by
  obtain ⟨hproper, hslash⟩ := disk.proper (Disk.get_mem h)
  exact ⟨⟨name, hproper, hslash⟩, rfl⟩

end

/-! ## The tree below a place -/

section

variable {rd : Readdir} {disk : Disk} {top : List Str}

/-- **There is a tree** of what the directories list. -/
theorem exists_tree (rd : Readdir) (disk : Disk) (top : List Str) :
    ∃ t : Forest EntryName, t.roots = rd.names disk top ∧
      t.Listed (fun names => rd.names disk (placeOf top names)) [] := by
  -- No place is deeper than the deepest one.
  have hdeep : ∀ q ∈ disk.things.keys, q.length ≤ disk.things.keys.sup List.length := fun q hq => Finset.le_sup hq
  have hall : ∀ (k : Nat) (names : List EntryName),
      disk.things.keys.sup List.length ≤ (placeOf top names).length + k →
      ∃ t : Forest EntryName, t.roots = rd.names disk (placeOf top names) ∧
        t.Listed (fun names => rd.names disk (placeOf top names)) names := by
    intro k
    induction k with
    | zero =>
      intro names hlength
      have hnone : rd.names disk (placeOf top names) = [] := by
        rw [List.eq_nil_iff_forall_not_mem]
        rintro ⟨n, directory⟩ hn
        obtain ⟨e, he, -⟩ := rd.mem_iff.mp hn
        have hle := hdeep _ (Finmap.mem_keys.mpr (Disk.get_mem he))
        rw [List.length_cons] at hle
        omega
      exact ⟨.nil, hnone.symm, trivial⟩
    | succ k ih =>
      intro names hlength
      refine Forest.exists_listed (rd.nodup disk (placeOf top names)) fun n _ => ih (names ++ [n]) ?_
      rw [placeOf_snoc, List.length_cons]
      omega
  exact hall _ [] (Nat.le_add_left _ _)

/-- Everything below the place is in the tree. -/
theorem mem_members {t : Forest EntryName} {names : List EntryName} (hroots : t.roots = rd.names disk (placeOf top names))
    (ht : t.Listed (fun names => rd.names disk (placeOf top names)) names) {more : List EntryName} (hne : more ≠ [])
    {e : Entry} (hthere : disk.get (placeOf top (names ++ more)) = some e) : names ++ more ∈ t.members names := by
  induction more generalizing t names with
  | nil => exact absurd rfl hne
  | cons n more ih =>
    have hsplit : names ++ n :: more = (names ++ [n]) ++ more := by simp
    rw [hsplit] at hthere ⊢
    cases more with
    | nil =>
      rw [List.append_nil, placeOf_snoc] at hthere
      have hlisted : (n, decide (e = .directory)) ∈ t.roots := by
        rw [hroots]
        exact rd.mem_iff.mpr ⟨e, hthere, decide_eq_true_iff⟩
      rw [List.append_nil]
      exact Forest.exists_root hlisted names
    | cons n' more =>
      rw [placeOf_append] at hthere
      have hdir := Disk.get_above hthere (by simp)
      rw [placeOf_snoc] at hdir
      have hlisted : (n, true) ∈ t.roots := by
        rw [hroots]
        exact rd.mem_iff.mpr ⟨.directory, hdir, iff_of_true rfl rfl⟩
      obtain ⟨below, hbelow, htree, hmem⟩ := Forest.exists_below hlisted ht
      refine hmem _ (ih hbelow htree (List.cons_ne_nil _ _) ?_)
      rw [placeOf_append]
      exact hthere

/-- And everything in the tree is there. -/
theorem members_there {t : Forest EntryName} {names m : List EntryName}
    (ht : t.Listed (fun names => rd.names disk (placeOf top names)) names)
    (hroots : ∀ e ∈ t.roots, e ∈ rd.names disk (placeOf top names)) (hm : m ∈ t.members names) :
    (disk.get (placeOf top m)).isSome := by
  have hentry : ∀ {n directory names}, (n, directory) ∈ rd.names disk (placeOf top names) →
      (disk.get (placeOf top (names ++ [n]))).isSome := by
    intro n directory names hn
    obtain ⟨e, he, -⟩ := rd.mem_iff.mp hn
    rw [placeOf_snoc, he]
    rfl
  induction t generalizing names with
  | nil => exact absurd hm List.not_mem_nil
  | leaf name next ih =>
    obtain ⟨hroot, hroots⟩ := List.forall_mem_cons.mp hroots
    rw [Forest.members, List.mem_cons] at hm
    obtain rfl | hm := hm
    · exact hentry hroot
    · exact ih ht.2 hroots hm
  | branch name below next ihBelow ih =>
    obtain ⟨-, hbelow, hlisted, hnext⟩ := ht
    obtain ⟨hroot, hroots⟩ := List.forall_mem_cons.mp hroots
    rw [Forest.members, List.mem_cons, List.mem_append] at hm
    obtain rfl | hm | hm := hm
    · exact hentry hroot
    · refine ihBelow hlisted ?_ hm
      rw [← hbelow]
      exact fun e he => he
    · exact ih hnext hroots hm

end

/-- What is below a place has names of entries. -/
theorem Disk.get_place {disk : Disk} {below pos : List Str} {e : Entry} (h : disk.get (below ++ pos) = some e) :
    ∃ names, below ++ pos = placeOf pos names := by
  induction below generalizing e with
  | nil => exact ⟨[], rfl⟩
  | cons name below ih =>
    obtain ⟨n, rfl⟩ := Disk.get_proper h
    have hdir := Disk.get_parent h
    obtain ⟨names, hnames⟩ := ih hdir
    exact ⟨names ++ [n], by rw [placeOf_snoc, List.cons_append, hnames]⟩

theorem runEvents_ok {σ ρ : Type} {body : Event EntryName → σ → Except ρ (σ × Bool)} {event : Event EntryName}
    {events : List (Event EntryName)} {st st' : σ} {skips : Bool} (h : body event st = .ok (st', skips)) :
    runEvents body (event :: events) st = runEvents body events st' := by
  rw [runEvents, h]

/-! ## A small disk -/

section

def childNames (disk : Disk) (pos : List Str) : Finset Str :=
  (disk.things.keys.filter fun q => q ≠ [] ∧ q.tail = pos).image (·.headD [])

theorem mem_childNames {disk : Disk} {pos : List Str} {name : Str} :
    name ∈ childNames disk pos ↔ (disk.get (name :: pos)).isSome := by
  unfold childNames
  rw [Finset.mem_image, Disk.get, Finmap.lookup_isSome, ← Finmap.mem_keys]
  constructor
  · rintro ⟨q, hq, rfl⟩
    obtain ⟨hmem, hne, rfl⟩ := Finset.mem_filter.mp hq
    obtain ⟨name, pos, rfl⟩ := List.exists_cons_of_ne_nil hne
    exact hmem
  · intro hmem
    exact ⟨name :: pos, Finset.mem_filter.mpr ⟨hmem, by simp, rfl⟩, rfl⟩

def entryOf (disk : Disk) (pos : List Str) (name : Str) : Option (EntryName × Bool) :=
  if h : ProperName name then (disk.get (name :: pos)).map fun e => (⟨name, h.1, h.2⟩, decide (e = .directory)) else none

theorem entryOf_name {disk : Disk} {pos : List Str} {name : Str} {e : EntryName × Bool}
    (h : entryOf disk pos name = some e) : e.1.name = name := by
  unfold entryOf at h
  split_ifs at h
  obtain ⟨-, -, rfl⟩ := Option.map_eq_some_iff.mp h
  rfl

/-- The names in whatever order. -/
noncomputable def someReaddir : Readdir where
  names disk pos := (childNames disk pos).toList.filterMap (entryOf disk pos)
  nodup disk pos := by
    rw [List.map_filterMap]
    refine List.Nodup.filterMap ?_ (Finset.nodup_toList _)
    intro name name' n hn hn'
    obtain ⟨e, he, rfl⟩ := Option.map_eq_some_iff.mp hn
    obtain ⟨e', he', heq⟩ := Option.map_eq_some_iff.mp hn'
    rw [← entryOf_name he, ← entryOf_name he', heq]
  mem_iff := by
    intro disk pos n directory
    rw [List.mem_filterMap]
    constructor
    · rintro ⟨name, -, hentry⟩
      obtain rfl := entryOf_name hentry
      unfold entryOf at hentry
      split_ifs at hentry
      obtain ⟨e, he, heq⟩ := Option.map_eq_some_iff.mp hentry
      cases heq
      exact ⟨e, he, decide_eq_true_iff⟩
    · rintro ⟨e, he, hkind⟩
      refine ⟨n.name, Finset.mem_toList.mpr (mem_childNames.mpr (by rw [he]; rfl)), ?_⟩
      have hdirectory : decide (e = .directory) = directory := by
        rw [Bool.eq_iff_iff, decide_eq_true_iff, hkind]
      rw [entryOf, dif_pos ⟨n.proper, n.no_slash⟩, he, Option.map_some, hdirectory]
  own := by
    intro disk disk' pos hsame
    have hnames : childNames disk' pos = childNames disk pos :=
      Finset.ext fun name => by rw [mem_childNames, mem_childNames, hsame]
    have hentry : entryOf disk' pos = entryOf disk pos := by
      funext name
      unfold entryOf
      rw [hsame]
    rw [hnames, hentry]

/-- A directory with a file and an empty one. -/
def smallThings : Finmap fun _ : List Str => Entry :=
  [(⟨[], .directory⟩ : (_ : List Str) × Entry), ⟨[ascii "a"], .directory⟩, ⟨[ascii "b"], .directory⟩,
    ⟨[ascii "f", ascii "a"], .file (ascii "text")⟩].toFinmap

def smallDisk : Disk where
  things := smallThings
  closed := by
    have hall : ∀ q ∈ smallThings.keys, q ≠ [] → smallThings.lookup q.tail = some .directory := by decide +kernel
    intro name pos hmem
    exact hall _ (Finmap.mem_keys.mpr hmem) (List.cons_ne_nil _ _)
  proper := by
    have hall : ∀ q ∈ smallThings.keys, q ≠ [] → ProperName (q.headD []) := by decide +kernel
    intro name pos hmem
    exact hall _ (Finmap.mem_keys.mpr hmem) (List.cons_ne_nil _ _)

def nameA : EntryName := ⟨ascii "a", by decide, by decide⟩

end

/-! ## Copies -/

/-- A directory, named without a slash behind it, and another one that is not in it and has nothing of its name. -/
structure Copyable (disk : Disk) (up : Str) (base : EntryName) (dest : Str) (top d : List Str) : Prop where
  src : disk.find (up ++ slash :: base.name) = some top
  dir : disk.get top = some .directory
  dest : disk.find dest = some d
  into : disk.get d = some .directory
  outside : ¬ top <:+ d
  free : disk.get (base.name :: d) = none

/-- As far as the copy has come. -/
structure Copied (disk : Disk) (top target : List Str) (done : List EntryName → Prop) (after : Disk) : Prop where
  outside : ∀ q, ¬ target <:+ q → after.get q = disk.get q
  copied : ∀ names, done names → after.get (placeOf target names) = disk.get (placeOf top names)
  fresh : ∀ names, ¬ done names → after.get (placeOf target names) = none

theorem Copied.congr {disk after : Disk} {top target : List Str} {done done' : List EntryName → Prop}
    (h : Copied disk top target done after) (hsame : ∀ m, done' m ↔ done m) : Copied disk top target done' after :=
  ⟨h.outside, fun m hm => h.copied m ((hsame m).mp hm), fun m hm => h.fresh m fun hdone => hm ((hsame m).mpr hdone)⟩

section

variable {rd : Readdir} {disk after : Disk} {up dest : Str} {base : EntryName} {top d : List Str}
  {done : List EntryName → Prop} {names : List EntryName}

theorem lastName_base (up : Str) (base : EntryName) : lastName (up ++ slash :: base.name) = base.name := by
  have hreverse : (up ++ slash :: base.name).reverse = base.name.reverse ++ slash :: up.reverse := by simp
  unfold lastName
  rw [hreverse, List.takeWhile_append_of_pos, List.takeWhile_cons_of_neg (by simp [isSlash]), List.append_nil,
    List.reverse_reverse]
  intro c hc
  simp [base.no_slash c (List.mem_reverse.mp hc)]

theorem stripSlash_base (up : Str) (base : EntryName) : stripSlash (up ++ slash :: base.name) = up ++ slash :: base.name := by
  have hne : base.name ≠ [] := by
    intro hnil
    have hproper := base.proper
    rw [hnil] at hproper
    cases hproper
  obtain ⟨init, c, hlast⟩ := List.eq_nil_or_concat base.name |>.resolve_left hne
  have hc : c ≠ slash := by
    rintro rfl
    have hslash := base.no_slash slash (by rw [hlast]; simp)
    cases hslash
  have hconcat : up ++ slash :: base.name = (up ++ slash :: init) ++ [c] := by simp [hlast]
  refine if_neg ?_
  rw [hconcat, List.getLast?_concat]
  simpa using hc

/-- The paths of the copy. -/
def copyPath (dest : Str) (base : EntryName) (names : List EntryName) : Str :=
  dest ++ (base :: names).flatMap fun n => slash :: n.name

theorem finaldest_eq (m : Member) :
    dest ++ slash :: (m.path (up ++ slash :: base.name)).drop
        ((up ++ slash :: base.name).length - (lastName (up ++ slash :: base.name)).length) =
      copyPath dest base m.names := by
  have hpath : m.path (up ++ slash :: base.name) =
      (up ++ [slash]) ++ (base.name ++ m.names.flatMap fun n => slash :: n.name) := by
    unfold Member.path
    rw [stripSlash_base]
    split_ifs with hnames
    · rw [hnames]
      simp
    · simp
  have hlength : (up ++ slash :: base.name).length - base.name.length = (up ++ [slash]).length := by
    simp only [List.length_append, List.length_cons, List.length_nil]
    omega
  rw [lastName_base, hlength, hpath, List.drop_left, copyPath, List.flatMap_cons, List.cons_append]

theorem copyBody_ok {event : Event EntryName} {st st' : Disk} {skips : Bool}
    (hok : copyBody (up ++ slash :: base.name) dest event st = .ok (st', skips)) :
    skips = false ∧ (st' = st ∨
      ∃ e, st.create (copyPath dest base event.names) e = some st') := by
  unfold copyBody at hok
  simp only [finaldest_eq] at hok
  split_ifs at hok
  · cases hok
    exact ⟨rfl, Or.inl rfl⟩
  · split at hok
    · cases hok
    · rename_i made hmade
      cases hok
      obtain ⟨content, -, hcreate⟩ := Option.bind_eq_some_iff.mp hmade
      exact ⟨rfl, Or.inr ⟨_, hcreate⟩⟩
  · split at hok
    · cases hok
    · rename_i made hmade
      cases hok
      exact ⟨rfl, Or.inr ⟨_, hmade⟩⟩
  · cases hok
    exact ⟨rfl, Or.inl rfl⟩

theorem placeOf_cons (pos : List Str) (n : EntryName) (names : List EntryName) :
    placeOf pos (n :: names) = placeOf (n.name :: pos) names := placeOf_append pos [n] names

theorem suffix_placeOf (pos : List Str) (names : List EntryName) : pos <:+ placeOf pos names := List.suffix_append _ _

/-- The copy and its source are the same, and nothing else has changed. -/
theorem Copied.same {t : Forest EntryName} (hroots : t.roots = rd.names disk top)
    (ht : t.Listed (fun names => rd.names disk (placeOf top names)) [])
    (hc : Copied disk top (base.name :: d) (fun m => m = [] ∨ m ∈ t.members []) after) (rel : List Str) :
    after.get (rel ++ base.name :: d) = disk.get (rel ++ top) := by
  have hplace : ∀ names : List EntryName, after.get (placeOf (base.name :: d) names) = disk.get (placeOf top names) := by
    intro names
    by_cases hdone : names = [] ∨ names ∈ t.members []
    · exact hc.copied names hdone
    · rw [hc.fresh names hdone]
      cases hthere : disk.get (placeOf top names) with
      | none => rfl
      | some e =>
        rw [not_or] at hdone
        exact absurd (mem_members hroots ht hdone.1 hthere) hdone.2
  have hboth : ∀ {pos pos' : List Str} {disk' disk'' : Disk} {e : Entry},
      (∀ names, disk'.get (placeOf pos names) = disk''.get (placeOf pos' names)) →
      disk'.get (rel ++ pos) = some e → disk''.get (rel ++ pos') = some e := by
    intro pos pos' disk' disk'' e hsame hthere
    obtain ⟨names, hnames⟩ := Disk.get_place hthere
    have hrel : rel ++ pos' = placeOf pos' names := by
      rw [placeOf, List.append_cancel_right hnames]
    rw [hrel, ← hsame, ← hnames]
    exact hthere
  exact Option.ext fun e => ⟨hboth hplace, hboth fun names => (hplace names).symm⟩

namespace Copyable

variable (h : Copyable disk up base dest top d)

include h

theorem nothing (below : List Str) : disk.get (below ++ base.name :: d) = none := by
  cases hget : disk.get (below ++ base.name :: d) with
  | none => rfl
  | some e =>
    cases below with
    | nil =>
      have hfree := h.free
      rw [List.nil_append] at hget
      rw [hget] at hfree
      cases hfree
    | cons name below =>
      have hdir := Disk.get_above hget (List.cons_ne_nil _ _)
      rw [h.free] at hdir
      cases hdir

/-- The source and the copy have nothing in common. -/
theorem apart (x y : List Str) : x ++ top ≠ y ++ base.name :: d := by
  intro heq
  have hfar : ¬ base.name :: d <:+ top := by
    rintro ⟨below, hbelow⟩
    have hdir := h.dir
    rw [← hbelow, h.nothing] at hdir
    cases hdir
  obtain hsuffix | hsuffix := List.suffix_or_suffix_of_suffix (List.suffix_append x top)
    (heq ▸ List.suffix_append y (base.name :: d))
  · obtain htop | hin := List.suffix_cons_iff.mp hsuffix
    · exact hfar (htop ▸ List.suffix_rfl)
    · exact h.outside hin
  · exact hfar hsuffix

/-- **The source is not touched** by what is done for one of its members. -/
theorem behind : Behind (listingOf rd id top) (copyBody (up ++ slash :: base.name) dest) where
  whole hok := (copyBody_ok hok).1
  listing := by
    intro event st st' skips hok names _
    obtain ⟨-, rfl | ⟨e, hcreate⟩⟩ := copyBody_ok hok
    · rfl
    · obtain ⟨name, pos, hfind, -, hthings⟩ := Disk.create_eq_some_iff.mp hcreate
      have hplace : name :: pos = placeOf (base.name :: d) event.names := by
        rw [Disk.follow_eq hfind, copyPath, moves_names, arrive_append, ← Disk.follow_eq h.dest, arrive_descend, placeOf_cons]
      refine rd.own fun name' => ?_
      change st'.get (name' :: placeOf top names) = st.get (name' :: placeOf top names)
      rw [Disk.get_insert hthings, if_neg]
      rw [hplace]
      exact h.apart (name' :: (names.map (·.name)).reverse) _

theorem start : Copied disk top (base.name :: d) (fun _ => False) disk :=
  ⟨fun _ _ => rfl, fun _ hfalse => hfalse.elim, fun _ _ => h.nothing _⟩

theorem mono (hc : Copied disk top (base.name :: d) done after) {q : List Str} {e : Entry}
    (hq : disk.get q = some e) : after.get q = some e := by
  rw [hc.outside, hq]
  rintro ⟨below, rfl⟩
  rw [h.nothing] at hq
  cases hq

/-- **One member is copied** into a directory that has been copied before. -/
theorem step (names : List EntryName) {info : Info} {e : Entry} (hc : Copied disk top (base.name :: d) done after)
    (hinto : names = [] ∨ ∃ init n, names = init ++ [n] ∧ done init ∧ disk.get (placeOf top init) = some .directory)
    (hfresh : ¬ done names) (hthere : disk.get (placeOf top names) = some e)
    (hinfo : info = .enter ∧ e = .directory ∨ ∃ content, info = .leaf ∧ e = .file content) :
    ∃ after', copyBody (up ++ slash :: base.name) dest ⟨info, names⟩ after = .ok (after', false) ∧
      Copied disk top (base.name :: d) (fun m => done m ∨ m = names) after' := by
  have hmono : ∀ q, disk.get q = some .directory → after.get q = some .directory := fun q => h.mono hc
  -- The directory is there, and the name is free.
  obtain ⟨n, pos, hplace, hpos⟩ : ∃ n : EntryName, ∃ pos, placeOf (base.name :: d) names = n.name :: pos ∧
      after.get pos = some .directory := by
    obtain rfl | ⟨init, n, rfl, hdone, hdir⟩ := hinto
    · exact ⟨base, d, rfl, hmono _ h.into⟩
    · exact ⟨n, placeOf (base.name :: d) init, placeOf_snoc _ _ _, (hc.copied init hdone).trans hdir⟩
  have hfind : after.find (copyPath dest base names) = some (n.name :: pos) := by
    rw [copyPath, Disk.find_names, Disk.find_mono h.dest hmono, Option.bind_some, ← hplace, ← placeOf_cons]
    obtain rfl | ⟨init, n, rfl, hdone, hdir⟩ := hinto
    · exact @Disk.follow_snoc _ _ [] base (hmono _ h.into)
    · refine @Disk.follow_snoc _ _ (base :: init) n ?_
      rw [placeOf_cons, hc.copied init hdone, hdir]
  have hnone : after.get (n.name :: pos) = none := hplace ▸ hc.fresh names hfresh
  have hexists : after.nodeExists (copyPath dest base names) = false := by
    rw [Disk.nodeExists, hfind, Option.bind_some, hnone]
    rfl
  obtain ⟨after', hcreate, hget⟩ := Disk.create_get hfind hpos hnone ⟨n.proper, n.no_slash⟩ e
  refine ⟨after', ?_, ?_⟩
  · unfold copyBody
    simp only [finaldest_eq]
    obtain ⟨rfl, rfl⟩ | ⟨content, rfl, rfl⟩ := hinfo
    · simp [memberOf, infoOf, hexists, hcreate]
    · have hread : after.read (Member.path (up ++ slash :: base.name) ⟨8, names⟩) = some content := by
        have hto := Disk.follow_to (h.mono hc hthere)
        rw [Disk.read, Disk.find_member (Disk.find_mono h.src hmono), hto, Option.bind_some, h.mono hc hthere]
      simp [memberOf, infoOf, hexists, hread, hcreate]
  · rw [← hplace] at hget
    refine ⟨fun q hq => ?_, fun m hm => ?_, fun m hm => ?_⟩
    · have hne : q ≠ placeOf (base.name :: d) names := by
        rintro rfl
        exact hq (suffix_placeOf _ _)
      rw [hget, if_neg hne]
      exact hc.outside q hq
    · rw [hget]
      split_ifs with heq
      · rw [placeOf_inj heq, hthere]
      · exact hc.copied m (hm.resolve_right fun hm => heq (by rw [hm]))
    · rw [not_or] at hm
      rw [hget, if_neg fun heq => hm.2 (placeOf_inj heq)]
      exact hc.fresh m hm.1

theorem members_done (t : Forest EntryName) {names : List EntryName} {done : List EntryName → Prop} {after : Disk}
    (ht : t.Listed (fun names => rd.names disk (placeOf top names)) names)
    (hroots : ∀ e ∈ t.roots, e ∈ rd.names disk (placeOf top names)) (hc : Copied disk top (base.name :: d) done after)
    (hhere : done names) (hdir : disk.get (placeOf top names) = some .directory)
    (hfresh : ∀ m ∈ t.members names, ¬ done m) :
    ∃ after', runEvents (copyBody (up ++ slash :: base.name) dest) (t.events names) after = .ok after' ∧
      Copied disk top (base.name :: d) (fun m => done m ∨ m ∈ t.members names) after' := by
  induction t generalizing names done after with
  | nil => exact ⟨after, rfl, hc.congr fun m => or_iff_left List.not_mem_nil⟩
  | leaf name next ih =>
    obtain ⟨hname, hnext⟩ := ht
    obtain ⟨hroot, hroots⟩ := List.forall_mem_cons.mp hroots
    obtain ⟨e, hthere, hkind⟩ := rd.mem_iff.mp hroot
    rw [← placeOf_snoc] at hthere
    obtain ⟨content, rfl⟩ : ∃ content, e = .file content := by
      cases e with
      | directory => exact absurd (hkind.mpr rfl) Bool.false_ne_true
      | file content => exact ⟨content, rfl⟩
    obtain ⟨after₁, hbody, hc₁⟩ := h.step _ hc (Or.inr ⟨names, name, rfl, hhere, hdir⟩)
      (hfresh _ List.mem_cons_self) hthere (Or.inr ⟨content, rfl, rfl⟩)
    obtain ⟨after', hrun, hc'⟩ := ih hnext hroots hc₁ (Or.inl hhere) hdir fun m hm hdone =>
      (hdone.elim (hfresh m (List.mem_cons_of_mem _ hm))) fun heq =>
        Forest.apart hname (heq ▸ List.prefix_rfl) hm
    refine ⟨after', ?_, hc'.congr fun m => ?_⟩
    · rw [Forest.events, runEvents_ok hbody]
      exact hrun
    · rw [Forest.members, List.mem_cons, or_assoc]
  | branch name below next ihBelow ih =>
    obtain ⟨hname, hbelow, hlisted, hnext⟩ := ht
    obtain ⟨hroot, hroots⟩ := List.forall_mem_cons.mp hroots
    obtain ⟨e, hthere, hkind⟩ := rd.mem_iff.mp hroot
    obtain rfl := hkind.mp rfl
    rw [← placeOf_snoc] at hthere
    obtain ⟨after₁, henter, hc₁⟩ := h.step _ hc (Or.inr ⟨names, name, rfl, hhere, hdir⟩)
      (hfresh _ List.mem_cons_self) hthere (Or.inl ⟨rfl, rfl⟩)
    have hin : ∀ e ∈ below.roots, e ∈ rd.names disk (placeOf top (names ++ [name])) := by
      rw [← hbelow]
      exact fun e he => he
    obtain ⟨after₂, hinside, hc₂⟩ := ihBelow hlisted hin hc₁ (Or.inr rfl) hthere fun m hm hdone =>
      hdone.elim (hfresh m (List.mem_cons_of_mem _ (List.mem_append_left _ hm))) fun heq =>
        Forest.names_notMem below _ (heq ▸ hm)
    have hleave : copyBody (up ++ slash :: base.name) dest ⟨.leave, names ++ [name]⟩ after₂ = .ok (after₂, false) := rfl
    obtain ⟨after', hrun, hc'⟩ := ih hnext hroots hc₂ (Or.inl (Or.inl hhere)) hdir fun m hm hdone => by
      obtain (hdone | heq) | hmem := hdone
      · exact hfresh m (List.mem_cons_of_mem _ (List.mem_append_right _ hm)) hdone
      · exact Forest.apart hname (heq ▸ List.prefix_rfl) hm
      · obtain ⟨n, -, hprefix⟩ := Forest.member_root hmem
        exact Forest.apart hname ((List.prefix_append _ _).trans hprefix) hm
    refine ⟨after', ?_, hc'.congr fun m => ?_⟩
    · rw [Forest.events, runEvents_ok henter, runEvents_append, hinside]
      exact (runEvents_ok hleave).trans hrun
    · rw [Forest.members, List.mem_cons, List.mem_append]
      tauto

end Copyable

/-- With a slash behind its name a directory has no last name, and the copy is taken to be there. -/
theorem copyDir_slash (rd : Readdir) {path : Str} (hsrc : disk.find (path ++ [slash]) = some top)
    (hdest : disk.find dest = some d) (hinto : disk.get d = some .directory) :
    copyDir rd 1 (path ++ [slash]) dest disk = some (.error (some 412, disk)) := by
  have hlast : lastName (path ++ [slash]) = [] := by
    unfold lastName
    rw [List.reverse_append]
    rfl
  have hexists : disk.nodeExists (dest ++ [slash]) = true := by
    have hstay : disk.find (dest ++ [slash]) = some d := by
      rw [Disk.find, moves_append_sep _ _ _ _ (by decide), Disk.follow_append]
      change (disk.find dest).bind _ = _
      rw [hdest, Option.bind_some, moves_nil, Disk.follow_cons, if_pos hinto]
      rfl
    rw [Disk.nodeExists, hstay, Option.bind_some, hinto]
    rfl
  have hbody : ∀ info, info ≠ .leave →
      copyBody (path ++ [slash]) dest ⟨info, []⟩ disk = .error (some 412, disk) := by
    intro info hinfo
    have hother : infoOf info ≠ 6 := infoOf_ne hinfo
    unfold copyBody
    simp [memberOf, hother, Member.path, hlast, hexists]
  unfold copyDir walkTree
  rw [id_eq, hsrc, Option.bind_some]
  cases decide (disk.get top = some .directory) with
  | true => exact loop_error rfl (hbody .enter (by simp))
  | false => exact loop_error rfl (hbody .leaf (by simp))

end

/-! ## Deletion -/

/-- As far as the deletion has come. -/
structure Deleted (disk : Disk) (top : List Str) (done : List EntryName → Prop) (after : Disk) : Prop where
  outside : ∀ q, ¬ top <:+ q → after.get q = disk.get q
  gone : ∀ names, done names → after.get (placeOf top names) = none
  kept : ∀ names, ¬ done names → after.get (placeOf top names) = disk.get (placeOf top names)

theorem Deleted.congr {disk after : Disk} {top : List Str} {done done' : List EntryName → Prop}
    (h : Deleted disk top done after) (hsame : ∀ m, done' m ↔ done m) : Deleted disk top done' after :=
  ⟨h.outside, fun m hm => h.gone m ((hsame m).mp hm), fun m hm => h.kept m fun hdone => hm ((hsame m).mpr hdone)⟩

section

variable {rd : Readdir} {disk after : Disk} {src : Str} {top : List Str} {done : List EntryName → Prop}
  {names : List EntryName}

theorem arrive_member (path : Str) (m : Member) :
    arrive [] (moves isSlash (m.path path)) = placeOf (arrive [] (moves isSlash path)) m.names := by
  have hstrip : arrive [] (moves isSlash (stripSlash path)) = arrive [] (moves isSlash path) := by
    unfold stripSlash
    split_ifs with hlast
    · have hpath := List.dropLast_append_getLast? slash hlast
      conv_rhs => rw [← hpath, moves_append_sep _ _ _ _ (by decide), arrive_append]
      rfl
    · rfl
  unfold Member.path
  split_ifs with hnames
  · rw [hnames]
    rfl
  · rw [moves_names, arrive_append, hstrip, arrive_descend]

theorem deleteBody_ok {event : Event EntryName} {st st' : Disk} {skips : Bool}
    (hok : deleteBody src event st = .ok (st', skips)) :
    skips = false ∧ (st' = st ∨ event.info ≠ .enter ∧ st.remove ((memberOf event).path src) = some st') := by
  unfold deleteBody at hok
  dsimp only at hok
  split_ifs at hok with henter
  · cases hok
    exact ⟨rfl, Or.inl rfl⟩
  · split at hok
    · cases hok
    · rename_i removed hremoved
      cases hok
      exact ⟨rfl, Or.inr ⟨fun hinfo => henter (congrArg infoOf hinfo), hremoved⟩⟩

/-- **Only what is behind the walk is deleted.** -/
theorem delete_behind (hsrc : disk.find src = some top) : Behind (listingOf rd id top) (deleteBody src) where
  whole hok := (deleteBody_ok hok).1
  listing := by
    intro event st st' skips hok names hcome
    obtain ⟨-, rfl | ⟨hinfo, hremove⟩⟩ := deleteBody_ok hok
    · rfl
    · obtain ⟨name, pos, hfind, hget⟩ := Disk.remove_eq_some hremove
      have hplace : name :: pos = placeOf top event.names := by
        rw [Disk.follow_eq hfind, arrive_member, ← Disk.follow_eq hsrc]
        rfl
      refine rd.own fun name' => ?_
      change st'.get (name' :: placeOf top names) = st.get (name' :: placeOf top names)
      rw [hget, if_neg]
      rw [hplace]
      intro heq
      refine hcome.resolve_left hinfo ?_
      obtain hnil | ⟨init, n, hsnoc⟩ := List.eq_nil_or_concat event.names
      · have hlength := congrArg List.length heq
        rw [hnil] at hlength
        simp [placeOf] at hlength
        omega
      · rw [List.concat_eq_append] at hsnoc
        rw [hsnoc, placeOf_snoc] at heq
        obtain ⟨-, htail⟩ := List.cons.inj heq
        rw [hsnoc, placeOf_inj htail]
        exact List.prefix_append _ _

theorem Deleted.start (disk : Disk) (top : List Str) : Deleted disk top (fun _ => False) disk :=
  ⟨fun _ _ => rfl, fun _ hfalse => hfalse.elim, fun _ _ => rfl⟩

/-- **One member is deleted** when nothing is in it any more. -/
theorem Deleted.step (hc : Deleted disk top done after) (hsrc : disk.find src = some top) (htop : top ≠ [])
    (hup : .up ∉ moves isSlash src) (info : Info) (hinfo : info ≠ .enter) (hfresh : ∀ init, init <+: names → ¬ done init)
    (hthere : (disk.get (placeOf top names)).isSome)
    (hempty : ∀ n, (disk.get (placeOf top (names ++ [n]))).isSome → done (names ++ [n])) :
    ∃ after', deleteBody src ⟨info, names⟩ after = .ok (after', false) ∧
      Deleted disk top (fun m => done m ∨ m = names) after' := by
  obtain ⟨e, hthere⟩ := Option.isSome_iff_exists.mp hthere
  have hroot : after.find src = some top := by
    refine Disk.follow_above hsrc hup fun q hq hdir => ?_
    by_cases hbelow : top <:+ q
    · have htop := hc.kept [] (hfresh [] List.nil_prefix)
      obtain rfl := hq.eq_of_length_le hbelow.length_le
      exact htop.trans hdir
    · exact (hc.outside q hbelow).trans hdir
  have hfollow : after.follow top (descend names) = some (placeOf top names) := by
    refine Disk.follow_descend fun init n more heq => ?_
    rw [hc.kept init (hfresh init (heq ▸ List.prefix_append _ _))]
    rw [heq, placeOf_append] at hthere
    exact Disk.get_above hthere (by simp)
  obtain ⟨name, pos, hplace⟩ := List.exists_cons_of_ne_nil fun hnil : placeOf top names = [] =>
    htop (List.append_eq_nil_iff.mp hnil).2
  have hfind : after.find ((memberOf ⟨info, names⟩).path src) = some (name :: pos) := by
    rw [Disk.find_member hroot, ← hplace]
    exact hfollow
  obtain ⟨after', hremove, hget⟩ := Disk.remove_get hfind
    (by rw [← hplace, hc.kept names (hfresh names List.prefix_rfl), hthere]; rfl) fun name' => by
      cases hchild : after.get (name' :: name :: pos) with
      | none => rfl
      | some e' =>
        obtain ⟨n, rfl⟩ := Disk.get_proper hchild
        rw [← hplace, ← placeOf_snoc] at hchild
        by_cases hdone : done (names ++ [n])
        · rw [hc.gone _ hdone] at hchild
          cases hchild
        · rw [hc.kept _ hdone] at hchild
          exact absurd (hempty n (by rw [hchild]; rfl)) hdone
  refine ⟨after', ?_, ?_⟩
  · have hother : (memberOf ⟨info, names⟩).info ≠ 1 := infoOf_ne hinfo
    unfold deleteBody
    dsimp only
    rw [if_neg hother, hremove]
  · rw [← hplace] at hget
    refine ⟨fun q hq => ?_, fun m hm => ?_, fun m hm => ?_⟩
    · have hne : q ≠ placeOf top names := by
        rintro rfl
        exact hq (suffix_placeOf _ _)
      rw [hget, if_neg hne]
      exact hc.outside q hq
    · rw [hget]
      split_ifs with heq
      · rfl
      · exact hc.gone m (hm.resolve_right fun hm => heq (by rw [hm]))
    · rw [not_or] at hm
      rw [hget, if_neg fun heq => hm.2 (placeOf_inj heq)]
      exact hc.kept m hm.1

theorem Deleted.members_done (hsrc : disk.find src = some top) (htop : top ≠ []) (hup : .up ∉ moves isSlash src)
    (t : Forest EntryName) {names : List EntryName} {done : List EntryName → Prop} {after : Disk}
    (ht : t.Listed (fun names => rd.names disk (placeOf top names)) names)
    (hroots : ∀ e ∈ t.roots, e ∈ rd.names disk (placeOf top names)) (hc : Deleted disk top done after)
    (hhere : ∀ init, init <+: names → ¬ done init) (hfresh : ∀ m ∈ t.members names, ¬ done m) :
    ∃ after', runEvents (deleteBody src) (t.events names) after = .ok after' ∧
      Deleted disk top (fun m => done m ∨ m ∈ t.members names) after' := by
  induction t generalizing names done after with
  | nil => exact ⟨after, rfl, hc.congr fun m => or_iff_left List.not_mem_nil⟩
  | leaf name next ih =>
    obtain ⟨hname, hnext⟩ := ht
    obtain ⟨hroot, hroots⟩ := List.forall_mem_cons.mp hroots
    obtain ⟨e, hthere, hkind⟩ := rd.mem_iff.mp hroot
    rw [← placeOf_snoc] at hthere
    have habove : ∀ init, init <+: names ++ [name] → ¬ done init := by
      intro init hinit
      obtain rfl | hinit := List.prefix_concat_iff.mp hinit
      · exact hfresh _ List.mem_cons_self
      · exact hhere init hinit
    obtain ⟨after₁, hbody, hc₁⟩ := hc.step hsrc htop hup .leaf (by simp) habove (by rw [hthere]; rfl) fun n hn => by
      obtain ⟨e', he'⟩ := Option.isSome_iff_exists.mp hn
      rw [placeOf_snoc] at he'
      have hdir := Disk.get_parent he'
      rw [hthere] at hdir
      exact absurd (hkind.mpr (Option.some.inj hdir)) Bool.false_ne_true
    obtain ⟨after', hrun, hc'⟩ := ih hnext hroots hc₁
      (fun init hinit hdone => hdone.elim (hhere init hinit) fun heq => by
        have hlength := hinit.length_le
        rw [heq] at hlength
        simp at hlength)
      fun m hm hdone => (hdone.elim (hfresh m (List.mem_cons_of_mem _ hm))) fun heq =>
        Forest.apart hname (heq ▸ List.prefix_rfl) hm
    refine ⟨after', ?_, hc'.congr fun m => ?_⟩
    · rw [Forest.events, runEvents_ok hbody]
      exact hrun
    · rw [Forest.members, List.mem_cons, or_assoc]
  | branch name below next ihBelow ih =>
    obtain ⟨hname, hbelow, hlisted, hnext⟩ := ht
    obtain ⟨hroot, hroots⟩ := List.forall_mem_cons.mp hroots
    obtain ⟨e, hthere, -⟩ := rd.mem_iff.mp hroot
    rw [← placeOf_snoc] at hthere
    have hin : ∀ e ∈ below.roots, e ∈ rd.names disk (placeOf top (names ++ [name])) := by
      rw [← hbelow]
      exact fun e he => he
    have habove : ∀ init, init <+: names ++ [name] → ¬ done init := by
      intro init hinit
      obtain rfl | hinit := List.prefix_concat_iff.mp hinit
      · exact hfresh _ List.mem_cons_self
      · exact hhere init hinit
    have henter : deleteBody src ⟨.enter, names ++ [name]⟩ after = .ok (after, false) := rfl
    obtain ⟨after₁, hinside, hc₁⟩ := ihBelow hlisted hin hc habove fun m hm =>
      hfresh m (List.mem_cons_of_mem _ (List.mem_append_left _ hm))
    -- What is in the directory is longer than any name above it.
    have hlonger : ∀ m ∈ below.members (names ++ [name]), ¬ m <+: names ++ [name] := by
      intro m hm hprefix
      obtain ⟨n, -, hn⟩ := Forest.member_root hm
      have hlength := (hn.trans hprefix).length_le
      simp at hlength
    obtain ⟨after₂, hleave, hc₂⟩ := hc₁.step hsrc htop hup .leave (by simp)
      (fun init hinit hdone => hdone.elim (habove init hinit) fun hmem => hlonger init hmem hinit)
      (by rw [hthere]; rfl) fun n hn => by
        obtain ⟨e', he'⟩ := Option.isSome_iff_exists.mp hn
        rw [placeOf_snoc] at he'
        have hlist : (n, decide (e' = .directory)) ∈ below.roots := by
          rw [← hbelow]
          exact rd.mem_iff.mpr ⟨e', he', decide_eq_true_iff⟩
        exact Or.inr (Forest.exists_root hlist _)
    obtain ⟨after', hrun, hc'⟩ := ih hnext hroots hc₂
      (fun init hinit hdone => by
        obtain (hdone | hmem) | heq := hdone
        · exact hhere init hinit hdone
        · exact hlonger init hmem (hinit.trans (List.prefix_append _ _))
        · have hlength := hinit.length_le
          rw [heq] at hlength
          simp at hlength)
      fun m hm hdone => by
        obtain (hdone | hmem) | heq := hdone
        · exact hfresh m (List.mem_cons_of_mem _ (List.mem_append_right _ hm)) hdone
        · obtain ⟨n, -, hprefix⟩ := Forest.member_root hmem
          exact Forest.apart hname ((List.prefix_append _ _).trans hprefix) hm
        · exact Forest.apart hname (heq ▸ List.prefix_rfl) hm
    refine ⟨after', ?_, hc'.congr fun m => ?_⟩
    · rw [Forest.events, runEvents_ok henter, runEvents_append, hinside]
      exact (runEvents_ok hleave).trans hrun
    · rw [Forest.members, List.mem_cons, List.mem_append]
      tauto

end

/-! ## Responses -/

section

variable {R : Type} {rd : Readdir} {generate : Str → Option Entry → R} {disk : Disk} {path : Str} {top : List Str}

/-- What `generate` makes of one resource. -/
def responseOf (generate : Str → Option Entry → R) (disk : Disk) (path : Str) (top : List Str)
    (names : List EntryName) : R :=
  generate ((Member.path path ⟨1, names⟩).drop (path.length - 1)) (disk.get (placeOf top names))

def addResponse (generate : Str → Option Entry → R) (path : Str) (top : List Str) (event : Event EntryName)
    (st : Disk × List R) : Disk × List R := (st.1, st.2 ++ [responseOf generate st.1 path top event.names])

theorem visitAll_addResponse (events : List (Event EntryName)) (out : List R) :
    visitAll (addResponse generate path top) events (disk, out) =
      (disk, out ++ (events.map Event.names).map (responseOf generate disk path top)) := by
  induction events generalizing out with
  | nil => simp [visitAll]
  | cons event events ih =>
    refine (ih (out ++ [responseOf generate disk path top event.names])).trans ?_
    simp

theorem response_shows (reqDepth : Nat) :
    Shows (listingOf rd (Prod.fst : Disk × List R → Disk) top) (responseBody generate top path reqDepth)
      (fun names => decide (names.length > reqDepth)) (addResponse generate path top) where
  leave _ _ := rfl
  hides := by
    intro info names st hinfo hhidden
    have hother : infoOf info ≠ 6 := infoOf_ne hinfo
    unfold responseBody
    exact (if_neg hother).trans (if_pos (of_decide_eq_true hhidden))
  visits := by
    intro info names st hinfo hhidden
    have hother : infoOf info ≠ 6 := infoOf_ne hinfo
    unfold responseBody
    exact (if_neg hother).trans (if_neg (of_decide_eq_false hhidden))
  deep := by
    intro names more hhidden
    rw [decide_eq_true_eq] at hhidden ⊢
    rw [List.length_append]
    omega
  same _ _ := rfl

end

end MyServer.DavTree
