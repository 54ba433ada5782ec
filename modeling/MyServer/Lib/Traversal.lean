import Mathlib.Tactic

/-!
# Walks over a tree that is read on the way

What is in a directory is read when the walk goes into it, and the loop that walks may have changed the tree by
then. As long as it changes only what is behind it, the walk is the one over the tree that was there at first.
-/

namespace MyServer.Traversal

variable {N σ ρ : Type}

inductive Info where
  | enter
  | leaf
  | leave
deriving DecidableEq

/-- Where the walk is, by the names from the top down. -/
structure Event (N : Type) where
  info : Info
  names : List N

/-- What is still to come: an entry of a directory, what is in a directory, and the directory again. -/
inductive Frame (N : Type) where
  | entry (directory : Bool) (names : List N)
  | inside (names : List N)
  | leave (names : List N)

/-! ## The walk -/

section

variable (listing : σ → List N → List (N × Bool))

def entriesOf (names : List N) (entries : List (N × Bool)) : List (Frame N) :=
  entries.map fun e => .entry e.2 (names ++ [e.1])

def pop : List (Frame N) → Option (Event N × List (Frame N))
  | .entry true names :: frames => some (⟨.enter, names⟩, .inside names :: .leave names :: frames)
  | .entry false names :: frames => some (⟨.leaf, names⟩, frames)
  | .leave names :: frames => some (⟨.leave, names⟩, frames)
  | .inside _ :: _ => none
  | [] => none

def next (st : σ) : List (Frame N) → Option (Event N × List (Frame N))
  | .inside names :: frames => pop (entriesOf names (listing st names) ++ frames)
  | frames => pop frames

/-- What is in a directory that was entered is not looked at. -/
def skip : Info → List (Frame N) → List (Frame N)
  | .enter, .inside _ :: frames => frames
  | _, frames => frames

/-- The body says whether to skip, or ends the loop. -/
def loop (body : Event N → σ → Except ρ (σ × Bool)) : Nat → List (Frame N) → σ → Option (Except ρ σ)
  | 0, _, _ => none
  | fuel + 1, frames, st =>
    match next listing st frames with
    | none => some (.ok st)
    | some (event, frames) =>
      match body event st with
      | .error r => some (.error r)
      | .ok (st, skips) => loop body fuel (if skips then skip event.info frames else frames) st

end

/-! ## Trees -/

/-- The entries of a directory, from one of them on. -/
inductive Forest (N : Type) where
  | nil
  | leaf (name : N) (next : Forest N)
  | branch (name : N) (below next : Forest N)

namespace Forest

def roots : Forest N → List (N × Bool)
  | nil => []
  | leaf name next => (name, false) :: next.roots
  | branch name _ next => (name, true) :: next.roots

def events (names : List N) : Forest N → List (Event N)
  | nil => []
  | leaf name next => ⟨.leaf, names ++ [name]⟩ :: next.events names
  | branch name below next =>
    ⟨.enter, names ++ [name]⟩ :: (below.events (names ++ [name]) ++ ⟨.leave, names ++ [name]⟩ :: next.events names)

/-- All that is in the tree. -/
def members (names : List N) : Forest N → List (List N)
  | nil => []
  | leaf name next => (names ++ [name]) :: next.members names
  | branch name below next => (names ++ [name]) :: (below.members (names ++ [name]) ++ next.members names)

/-- Below each branch of the tree is what the listing says, and no entry comes twice. -/
def Listed (listing : List N → List (N × Bool)) (names : List N) : Forest N → Prop
  | nil => True
  | leaf name next => name ∉ next.roots.map Prod.fst ∧ next.Listed listing names
  | branch name below next =>
    name ∉ next.roots.map Prod.fst ∧ listing (names ++ [name]) = below.roots ∧
      below.Listed listing (names ++ [name]) ∧ next.Listed listing names

variable {listing listing' : List N → List (N × Bool)}

theorem names_events {t : Forest N} {names : List N} {e : Event N} (h : e ∈ t.events names) :
    ∃ n ∈ t.roots.map Prod.fst, names ++ [n] <+: e.names := by
  induction t generalizing names with
  | nil => exact absurd h List.not_mem_nil
  | leaf name next ih =>
    rw [events, List.mem_cons] at h
    obtain rfl | h := h
    · exact ⟨name, List.mem_cons_self, List.prefix_rfl⟩
    · obtain ⟨n, hn, hbelow⟩ := ih h
      exact ⟨n, List.mem_cons_of_mem _ hn, hbelow⟩
  | branch name below next ihBelow ih =>
    rw [events, List.mem_cons, List.mem_append, List.mem_cons] at h
    obtain rfl | h | rfl | h := h
    · exact ⟨name, List.mem_cons_self, List.prefix_rfl⟩
    · obtain ⟨n, -, hbelow⟩ := ihBelow h
      exact ⟨name, List.mem_cons_self, (List.prefix_append _ _).trans hbelow⟩
    · exact ⟨name, List.mem_cons_self, List.prefix_rfl⟩
    · obtain ⟨n, hn, hbelow⟩ := ih h
      exact ⟨n, List.mem_cons_of_mem _ hn, hbelow⟩

/-- What is listed depends on the directories in the tree. -/
theorem Listed.congr {t : Forest N} {names : List N} (h : t.Listed listing names)
    (hsame : ∀ n ∈ t.roots.map Prod.fst, ∀ more, listing' (names ++ n :: more) = listing (names ++ n :: more)) :
    t.Listed listing' names := by
  induction t generalizing names with
  | nil => trivial
  | leaf name next ih => exact ⟨h.1, ih h.2 fun n hn => hsame n (List.mem_cons_of_mem _ hn)⟩
  | branch name below next ihBelow ih =>
    obtain ⟨hfresh, hhere, hbelow, hnext⟩ := h
    have hname := hsame name List.mem_cons_self
    refine ⟨hfresh, (hname []).trans hhere, ihBelow hbelow fun n _ more => ?_,
      ih hnext fun n hn => hsame n (List.mem_cons_of_mem _ hn)⟩
    rw [List.append_assoc]
    exact hname (n :: more)

theorem exists_root {t : Forest N} {n : N} {directory : Bool} (h : (n, directory) ∈ t.roots) (names : List N) :
    names ++ [n] ∈ t.members names := by
  induction t with
  | nil => exact absurd h List.not_mem_nil
  | leaf name next ih =>
    rw [roots, List.mem_cons] at h
    obtain heq | h := h
    · cases heq
      exact List.mem_cons_self
    · exact List.mem_cons_of_mem _ (ih h)
  | branch name below next _ ih =>
    rw [roots, List.mem_cons] at h
    obtain heq | h := h
    · cases heq
      exact List.mem_cons_self
    · exact List.mem_cons_of_mem _ (List.mem_append_right _ (ih h))

theorem exists_below {t : Forest N} {n : N} {names : List N} (h : (n, true) ∈ t.roots) (ht : t.Listed listing names) :
    ∃ below : Forest N, below.roots = listing (names ++ [n]) ∧ below.Listed listing (names ++ [n]) ∧
      ∀ m ∈ below.members (names ++ [n]), m ∈ t.members names := by
  induction t with
  | nil => exact absurd h List.not_mem_nil
  | leaf name next ih =>
    rw [roots, List.mem_cons] at h
    obtain ⟨below, hroots, hbelow, hmem⟩ := ih (h.resolve_left (by simp)) ht.2
    exact ⟨below, hroots, hbelow, fun m hm => List.mem_cons_of_mem _ (hmem m hm)⟩
  | branch name below next _ ih =>
    obtain ⟨-, hhere, hbelow, hnext⟩ := ht
    rw [roots, List.mem_cons] at h
    obtain heq | h := h
    · cases heq
      exact ⟨below, hhere.symm, hbelow, fun m hm => List.mem_cons_of_mem _ (List.mem_append_left _ hm)⟩
    · obtain ⟨below', hroots, hbelow', hmem⟩ := ih h hnext
      exact ⟨below', hroots, hbelow', fun m hm => List.mem_cons_of_mem _ (List.mem_append_right _ (hmem m hm))⟩

theorem member_root {t : Forest N} {names m : List N} (h : m ∈ t.members names) :
    ∃ n ∈ t.roots.map Prod.fst, names ++ [n] <+: m := by
  induction t generalizing names with
  | nil => exact absurd h List.not_mem_nil
  | leaf name next ih =>
    rw [members, List.mem_cons] at h
    obtain rfl | h := h
    · exact ⟨name, List.mem_cons_self, List.prefix_rfl⟩
    · obtain ⟨n, hn, hm⟩ := ih h
      exact ⟨n, List.mem_cons_of_mem _ hn, hm⟩
  | branch name below next ihBelow ih =>
    rw [members, List.mem_cons, List.mem_append] at h
    obtain rfl | h | h := h
    · exact ⟨name, List.mem_cons_self, List.prefix_rfl⟩
    · obtain ⟨n, -, hm⟩ := ihBelow h
      exact ⟨name, List.mem_cons_self, (List.prefix_append _ _).trans hm⟩
    · obtain ⟨n, hn, hm⟩ := ih h
      exact ⟨n, List.mem_cons_of_mem _ hn, hm⟩

/-- What is below an entry is not below another one. -/
theorem not_prefix {t : Forest N} {names m m' : List N} {n : N} (hn : n ∉ t.roots.map Prod.fst)
    (hm : names ++ [n] <+: m) (hm' : m' ∈ t.members names) : ¬ m' <+: m := by
  intro hprefix
  obtain ⟨n', hn', hbelow⟩ := member_root hm'
  obtain ⟨r, rfl⟩ := hm
  have hboth := hbelow.trans hprefix
  rw [List.append_assoc, List.prefix_append_right_inj] at hboth
  exact hn ((List.cons_prefix_cons.mp hboth).1 ▸ hn')

theorem apart {t : Forest N} {names m : List N} {n : N} (hn : n ∉ t.roots.map Prod.fst) (hm : names ++ [n] <+: m) :
    m ∉ t.members names := fun hmem => not_prefix hn hm hmem List.prefix_rfl

/-- A directory is not below itself. -/
theorem names_notMem (t : Forest N) (names : List N) : names ∉ t.members names := by
  intro hmem
  obtain ⟨n, -, hn⟩ := member_root hmem
  have hlength := hn.length_le
  simp at hlength

/-- Nothing comes twice, and nothing after what is in it. -/
theorem members_pairwise {t : Forest N} {names : List N} (ht : t.Listed listing names) :
    (t.members names).Pairwise fun m m' => ¬ m' <+: m := by
  induction t generalizing names with
  | nil => exact List.Pairwise.nil
  | leaf name next ih =>
    obtain ⟨hname, hnext⟩ := ht
    rw [members, List.pairwise_cons]
    exact ⟨fun m' hm' => not_prefix hname List.prefix_rfl hm', ih hnext⟩
  | branch name below next ihBelow ih =>
    obtain ⟨hname, -, hbelow, hnext⟩ := ht
    have hlonger : ∀ m' ∈ below.members (names ++ [name]), ¬ m' <+: names ++ [name] := by
      intro m' hm' hprefix
      obtain ⟨n, -, hn⟩ := member_root hm'
      have hlength := (hn.trans hprefix).length_le
      simp at hlength
    rw [members, List.pairwise_cons, List.pairwise_append]
    refine ⟨fun m' hm' => ?_, ihBelow hbelow, ih hnext, fun m hm m' hm' => ?_⟩
    · obtain hm' | hm' := List.mem_append.mp hm'
      · exact hlonger m' hm'
      · exact not_prefix hname List.prefix_rfl hm'
    · obtain ⟨n, -, hn⟩ := member_root hm
      exact not_prefix hname ((List.prefix_append _ _).trans hn) hm'

/-- A tree with these entries, out of one for what is in each directory. -/
theorem exists_listed {names : List N} {entries : List (N × Bool)} (hnodup : (entries.map Prod.fst).Nodup)
    (hbelow : ∀ n, (n, true) ∈ entries → ∃ t : Forest N, t.roots = listing (names ++ [n]) ∧ t.Listed listing (names ++ [n])) :
    ∃ t : Forest N, t.roots = entries ∧ t.Listed listing names := by
  induction entries with
  | nil => exact ⟨.nil, rfl, trivial⟩
  | cons e entries ih =>
    obtain ⟨hfresh, hrest⟩ := List.nodup_cons.mp hnodup
    obtain ⟨next, hroots, hnext⟩ := ih hrest fun n hn => hbelow n (List.mem_cons_of_mem _ hn)
    obtain ⟨name, directory⟩ := e
    cases directory with
    | false => exact ⟨.leaf name next, by rw [roots, hroots], by rw [hroots]; exact hfresh, hnext⟩
    | true =>
      obtain ⟨below, hhere, hlisted⟩ := hbelow name List.mem_cons_self
      exact ⟨.branch name below next, by rw [roots, hroots], by rw [hroots]; exact hfresh, hhere.symm, hlisted, hnext⟩

end Forest

/-! ## The loop over a tree -/

section

variable {listing : σ → List N → List (N × Bool)} {body : Event N → σ → Except ρ (σ × Bool)}

/-- The body for one event after the other. -/
def runEvents (body : Event N → σ → Except ρ (σ × Bool)) : List (Event N) → σ → Except ρ σ
  | [], st => .ok st
  | event :: events, st =>
    match body event st with
    | .error r => .error r
    | .ok (st, _) => runEvents body events st

theorem runEvents_append (events more : List (Event N)) (st : σ) :
    runEvents body (events ++ more) st =
      match runEvents body events st with
      | .error r => .error r
      | .ok st => runEvents body more st := by
  induction events generalizing st with
  | nil => rfl
  | cons event events ih =>
    rw [List.cons_append, runEvents, runEvents]
    cases body event st with
    | error r => rfl
    | ok result => exact ih result.1

/-- Nothing is skipped, and only what the walk has left, or met as a leaf, may look different afterwards, and what it
was in. -/
structure Behind (listing : σ → List N → List (N × Bool)) (body : Event N → σ → Except ρ (σ × Bool)) : Prop where
  whole : ∀ {event st st' skips}, body event st = .ok (st', skips) → skips = false
  listing : ∀ {event st st' skips}, body event st = .ok (st', skips) →
    ∀ names, event.info = .enter ∨ ¬ names <+: event.names → listing st' names = listing st names

theorem Behind.run (h : Behind listing body) {events : List (Event N)} {st st' : σ}
    (hrun : runEvents body events st = .ok st') {names : List N} (hnames : ∀ e ∈ events, ¬ names <+: e.names) :
    listing st' names = listing st names := by
  induction events generalizing st with
  | nil =>
    cases hrun
    rfl
  | cons event events ih =>
    obtain ⟨hhead, htail⟩ := List.forall_mem_cons.mp hnames
    rw [runEvents] at hrun
    cases hbody : body event st with
    | error r =>
      rw [hbody] at hrun
      cases hrun
    | ok result =>
      rw [hbody] at hrun
      exact (ih hrun htail).trans (h.listing hbody names (Or.inr hhead))

theorem next_inside {st : σ} {names : List N} {t : Forest N} (h : listing st names = t.roots)
    (frames : List (Frame N)) :
    next listing st (.inside names :: .leave names :: frames) =
      next listing st (entriesOf names t.roots ++ .leave names :: frames) := by
  rw [next, h]
  cases t <;> rfl

theorem loop_inside {st : σ} {names : List N} {t : Forest N} (h : listing st names = t.roots) (fuel : Nat)
    (frames : List (Frame N)) :
    loop listing body fuel (.inside names :: .leave names :: frames) st =
      loop listing body fuel (entriesOf names t.roots ++ .leave names :: frames) st := by
  cases fuel with
  | zero => rfl
  | succ fuel => rw [loop, loop, next_inside h]

theorem loop_pop (hbody : Behind listing body) {fuel : Nat} {frames rest : List (Frame N)} {st : σ} {event : Event N}
    (hnext : next listing st frames = some (event, rest)) :
    loop listing body (fuel + 1) frames st =
      match body event st with
      | .error r => some (.error r)
      | .ok (st', _) => loop listing body fuel rest st' := by
  rw [loop, hnext]
  dsimp only
  cases hevent : body event st with
  | error r => rfl
  | ok result =>
    obtain ⟨st', skips⟩ := result
    obtain rfl := hbody.whole hevent
    rfl

theorem loop_error {fuel : Nat} {frames rest : List (Frame N)} {st : σ} {event : Event N} {r : ρ}
    (hnext : next listing st frames = some (event, rest)) (hbody : body event st = .error r) :
    loop listing body (fuel + 1) frames st = some (.error r) := by
  rw [loop, hnext]
  dsimp only
  rw [hbody]

theorem not_prefix_of_ne {names more : List N} {n n' : N} (h : n ≠ n') {l : List N} (hl : names ++ [n'] <+: l) :
    ¬ names ++ n :: more <+: l := by
  intro hpre
  obtain ⟨r, rfl⟩ := hl
  rw [List.append_assoc, List.prefix_append_right_inj] at hpre
  exact h (List.cons_prefix_cons.mp hpre).1

/-- **The loop meets the tree that was there at first**, in its order. -/
theorem loop_tree (hbody : Behind listing body) {t : Forest N} {names : List N} {st : σ}
    (ht : t.Listed (listing st) names) (fuel : Nat) (frames : List (Frame N)) :
    loop listing body ((t.events names).length + fuel) (entriesOf names t.roots ++ frames) st =
      match runEvents body (t.events names) st with
      | .error r => some (.error r)
      | .ok st' => loop listing body fuel frames st' := by
  induction t generalizing names st fuel frames with
  | nil =>
    rw [Forest.events, List.length_nil, Nat.zero_add]
    rfl
  | leaf name next ih =>
    obtain ⟨hfresh, hnext⟩ := ht
    have hfuel : ((Forest.leaf name next).events names).length + fuel = ((next.events names).length + fuel) + 1 := by
      rw [Forest.events, List.length_cons]
      omega
    rw [hfuel, loop_pop hbody rfl, Forest.events, runEvents]
    cases hevent : body ⟨.leaf, names ++ [name]⟩ st with
    | error r => rfl
    | ok result =>
      dsimp only
      refine ih (hnext.congr fun n hn more => hbody.listing hevent _ (Or.inr ?_)) fuel frames
      have hne : n ≠ name := fun heq => hfresh (heq ▸ hn)
      exact not_prefix_of_ne hne List.prefix_rfl
  | branch name below next ihBelow ih =>
    obtain ⟨hfresh, hhere, hbelow, hnext⟩ := ht
    have hfuel : ((Forest.branch name below next).events names).length + fuel =
        ((below.events (names ++ [name])).length + (((next.events names).length + fuel) + 1)) + 1 := by
      rw [Forest.events, List.length_cons, List.length_append, List.length_cons]
      omega
    rw [hfuel, loop_pop hbody rfl, Forest.events, runEvents]
    cases henter : body ⟨.enter, names ++ [name]⟩ st with
    | error r => rfl
    | ok entered =>
      obtain ⟨st₁, skips⟩ := entered
      have hsame : ∀ more, listing st₁ more = listing st more := fun more => hbody.listing henter more (Or.inl rfl)
      have hbelow₁ : below.Listed (listing st₁) (names ++ [name]) := hbelow.congr fun _ _ _ => hsame _
      dsimp only
      rw [loop_inside ((hsame _).trans hhere), ihBelow hbelow₁, runEvents_append]
      cases hrun : runEvents body (below.events (names ++ [name])) st₁ with
      | error r => rfl
      | ok st₂ =>
        dsimp only
        rw [loop_pop hbody rfl, runEvents]
        cases hleave : body ⟨.leave, names ++ [name]⟩ st₂ with
        | error r => rfl
        | ok left =>
          dsimp only
          refine ih (hnext.congr fun n hn more => ?_) fuel frames
          have hne : n ≠ name := fun heq => hfresh (heq ▸ hn)
          have hleft := hbody.listing hleave (names ++ n :: more) (Or.inr (not_prefix_of_ne hne List.prefix_rfl))
          have hran : listing st₂ (names ++ n :: more) = listing st₁ (names ++ n :: more) := by
            refine hbody.run hrun fun e he => ?_
            obtain ⟨m, -, hm⟩ := Forest.names_events he
            exact not_prefix_of_ne hne ((List.prefix_append _ _).trans hm)
          exact hleft.trans (hran.trans (hsame _))

/-- A directory with all that is in it. -/
def rootEvents (t : Forest N) : List (Event N) := ⟨.enter, []⟩ :: (t.events [] ++ [⟨.leave, []⟩])

theorem loop_root (hbody : Behind listing body) {t : Forest N} {st : σ} (hroots : listing st [] = t.roots)
    (ht : t.Listed (listing st) []) :
    loop listing body ((t.events []).length + 3) [.entry true []] st = some (runEvents body (rootEvents t) st) := by
  rw [loop_pop hbody rfl, rootEvents, runEvents]
  cases henter : body ⟨.enter, []⟩ st with
  | error r => rfl
  | ok entered =>
    obtain ⟨st₁, skips⟩ := entered
    have hsame : ∀ more, listing st₁ more = listing st more := fun more => hbody.listing henter more (Or.inl rfl)
    dsimp only
    rw [loop_inside ((hsame _).trans hroots), loop_tree hbody (ht.congr fun _ _ _ => hsame _), runEvents_append]
    cases runEvents body (t.events []) st₁ with
    | error r => rfl
    | ok st₂ =>
      dsimp only
      rw [loop_pop hbody rfl, runEvents]
      cases body ⟨.leave, []⟩ st₂ with
      | error r => rfl
      | ok left => rfl

end

/-! ## Skipping -/

section

variable {listing : σ → List N → List (N × Bool)} {body : Event N → σ → Except ρ (σ × Bool)} {hidden : List N → Bool}
  {visit : Event N → σ → σ}

/-- What is hidden is skipped, with all that is below it, and everything else is visited when it is met first. -/
structure Shows (listing : σ → List N → List (N × Bool)) (body : Event N → σ → Except ρ (σ × Bool))
    (hidden : List N → Bool) (visit : Event N → σ → σ) : Prop where
  leave : ∀ names st, body ⟨.leave, names⟩ st = .ok (st, false)
  hides : ∀ info {names} st, info ≠ .leave → hidden names = true → body ⟨info, names⟩ st = .ok (st, true)
  visits : ∀ info {names} st, info ≠ .leave → hidden names = false →
    body ⟨info, names⟩ st = .ok (visit ⟨info, names⟩ st, false)
  deep : ∀ {names} more, hidden names = true → hidden (names ++ more) = true
  same : ∀ event st, listing (visit event st) = listing st

def shown (hidden : List N → Bool) (events : List (Event N)) : List (Event N) :=
  events.filter fun e => e.info ≠ .leave ∧ hidden e.names = false

def visitAll (visit : Event N → σ → σ) (events : List (Event N)) (st : σ) : σ :=
  events.foldl (fun st event => visit event st) st

theorem visitAll_cons_append (event : Event N) (events more : List (Event N)) (st : σ) :
    visitAll visit (event :: (events ++ more)) st = visitAll visit more (visitAll visit events (visit event st)) :=
  List.foldl_append

theorem Shows.listing_all (h : Shows listing body hidden visit) (events : List (Event N)) (st : σ) :
    listing (visitAll visit events st) = listing st := by
  induction events generalizing st with
  | nil => rfl
  | cons event events ih => exact (ih _).trans (h.same event st)

theorem Shows.shown_hidden (h : Shows listing body hidden visit) (t : Forest N) {names : List N}
    (hnames : hidden names = true) : shown hidden (t.events names) = [] := by
  unfold shown
  rw [List.filter_eq_nil_iff]
  intro e he
  obtain ⟨n, -, more, hmore⟩ := Forest.names_events he
  have hdeep : hidden e.names = true := by
    rw [← hmore, List.append_assoc]
    exact h.deep _ hnames
  simp [hdeep]

theorem loop_step {fuel : Nat} {frames rest : List (Frame N)} {st st' : σ} {event : Event N} {skips : Bool}
    (hnext : next listing st frames = some (event, rest)) (hbody : body event st = .ok (st', skips)) :
    loop listing body (fuel + 1) frames st =
      loop listing body fuel (if skips then skip event.info rest else rest) st' := by
  rw [loop, hnext]
  dsimp only
  rw [hbody]

/-- **What is shown is met**, and nothing else is. -/
theorem loop_shown (h : Shows listing body hidden visit) {t : Forest N} {names : List N} {st : σ}
    (ht : t.Listed (listing st) names) (frames : List (Frame N)) :
    ∃ used, ∀ fuel, loop listing body (used + fuel) (entriesOf names t.roots ++ frames) st =
      loop listing body fuel frames (visitAll visit (shown hidden (t.events names)) st) := by
  induction t generalizing names st frames with
  | nil => exact ⟨0, fun fuel => by rw [Nat.zero_add]; rfl⟩
  | leaf name next ih =>
    obtain ⟨-, hnext⟩ := ht
    cases hhidden : hidden (names ++ [name]) with
    | true =>
      obtain ⟨used, hused⟩ := ih hnext frames
      refine ⟨used + 1, fun fuel => ?_⟩
      have hshown : shown hidden ((Forest.leaf name next).events names) = shown hidden (next.events names) := by
        simp [shown, Forest.events, hhidden]
      have hstep := h.hides .leaf st (by simp) hhidden
      rw [hshown, Nat.add_right_comm, loop_step rfl hstep]
      exact hused fuel
    | false =>
      have hsame := h.same ⟨.leaf, names ++ [name]⟩ st
      obtain ⟨used, hused⟩ := ih (hsame.symm ▸ hnext) frames
      refine ⟨used + 1, fun fuel => ?_⟩
      have hshown : shown hidden ((Forest.leaf name next).events names) =
          ⟨.leaf, names ++ [name]⟩ :: shown hidden (next.events names) := by
        simp [shown, Forest.events, hhidden]
      have hstep := h.visits .leaf st (by simp) hhidden
      rw [hshown, Nat.add_right_comm, loop_step rfl hstep]
      exact hused fuel
  | branch name below next ihBelow ih =>
    obtain ⟨-, hhere, hbelow, hnext⟩ := ht
    cases hhidden : hidden (names ++ [name]) with
    | true =>
      obtain ⟨used, hused⟩ := ih hnext frames
      refine ⟨used + 2, fun fuel => ?_⟩
      have hnone := h.shown_hidden below hhidden
      have hshown : shown hidden ((Forest.branch name below next).events names) = shown hidden (next.events names) := by
        unfold shown at hnone ⊢
        rw [Forest.events, List.filter_cons, List.filter_append, hnone, List.filter_cons]
        simp [hhidden]
      have henter := h.hides .enter st (by simp) hhidden
      have hleave := h.leave (names ++ [name]) st
      have hfuel : used + 2 + fuel = used + fuel + 1 + 1 := by omega
      rw [hshown, hfuel, loop_step rfl henter]
      exact (loop_step rfl hleave).trans (hused fuel)
    | false =>
      have hsame := h.same ⟨.enter, names ++ [name]⟩ st
      have hlisted : below.Listed (listing (visit ⟨.enter, names ++ [name]⟩ st)) (names ++ [name]) := hsame.symm ▸ hbelow
      obtain ⟨used, hused⟩ := ihBelow hlisted (.leave (names ++ [name]) :: (entriesOf names next.roots ++ frames))
      have hall := h.listing_all (shown hidden (below.events (names ++ [name]))) (visit ⟨.enter, names ++ [name]⟩ st)
      obtain ⟨used', hused'⟩ := ih ((hall.trans hsame).symm ▸ hnext) frames
      refine ⟨used + (used' + 1) + 1, fun fuel => ?_⟩
      have hshown : shown hidden ((Forest.branch name below next).events names) =
          ⟨.enter, names ++ [name]⟩ ::
            (shown hidden (below.events (names ++ [name])) ++ shown hidden (next.events names)) := by
        unfold shown
        rw [Forest.events, List.filter_cons, List.filter_append, List.filter_cons]
        simp [hhidden]
      have henter := h.visits .enter st (by simp) hhidden
      have hfuel : used + (used' + 1) + 1 + fuel = used + (used' + fuel + 1) + 1 := by omega
      rw [hshown, hfuel, loop_step rfl henter]
      refine (loop_inside ((congrFun hsame _).trans hhere) _ _).trans ?_
      refine (hused _).trans ((loop_step rfl (h.leave _ _)).trans ?_)
      rw [visitAll_cons_append]
      exact hused' fuel

theorem loop_shown_root (h : Shows listing body hidden visit) {t : Forest N} {st : σ} (hroots : listing st [] = t.roots)
    (ht : t.Listed (listing st) []) (hroot : hidden [] = false) :
    ∃ fuel, loop listing body fuel [.entry true []] st =
      some (.ok (visitAll visit (⟨.enter, []⟩ :: shown hidden (t.events [])) st)) := by
  have hsame := h.same ⟨.enter, []⟩ st
  obtain ⟨used, hused⟩ := loop_shown h (hsame.symm ▸ ht) [.leave []]
  refine ⟨used + 2 + 1, ?_⟩
  have henter := h.visits .enter st (by simp) hroot
  rw [loop_step rfl henter]
  refine (loop_inside ((congrFun hsame _).trans hroots) _ _).trans ((hused 2).trans ?_)
  exact @loop_step _ _ _ _ _ 1 [.leave []] [] _ _ ⟨.leave, []⟩ _ rfl (h.leave _ _)

theorem names_shown (hidden : List N → Bool) (t : Forest N) (names : List N) :
    (shown hidden (t.events names)).map Event.names = (t.members names).filter fun m => hidden m = false := by
  unfold shown
  induction t generalizing names with
  | nil => rfl
  | leaf name next ih =>
    rw [Forest.events, Forest.members, List.filter_cons, List.filter_cons, ← ih]
    cases hidden (names ++ [name]) <;> simp
  | branch name below next ihBelow ih =>
    rw [Forest.events, Forest.members, List.filter_cons, List.filter_append, List.filter_cons, List.filter_cons,
      List.filter_append, ← ih, ← ihBelow]
    cases hidden (names ++ [name]) <;> simp

end

end MyServer.Traversal
