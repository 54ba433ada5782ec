import MyServer.Plugin.FallDown

/-!
# Which plugins are left after `load`

The plugins that fall are those below a seed: a plugin on which some plugin
depends and which is missing or has a dependence out of range. A plugin on which
nothing depends is not checked, and neither is one for another version of the
server.
-/

open Std

namespace MyServer.Plugin

/-- The plugin `d` is registered and names `n` as a dependence. -/
def Dependent (infos : Infos) (n d : Str) : Prop := ∃ info, infos[d]? = some info ∧ n ∈ info.dependences

def OutOfRange (infos : Infos) (s : Str) : Prop :=
  ∃ info dep dinfo, infos[s]? = some info ∧ dep ∈ info.dependences ∧ infos[dep]? = some dinfo ∧
    inRange dinfo (info.dependences.index dep) = false

/-- A plugin at which the second loop starts a removal. -/
def Seed (infos : Infos) (s : Str) : Prop :=
  (∃ d, Dependent infos s d) ∧ (missing infos s = true ∨ OutOfRange infos s)

def Fallen (infos : Infos) (name : Str) : Prop :=
  ∃ s, Seed infos s ∧ Relation.ReflTransGen (Dependent infos) s name

theorem Fallen.dependent {infos : Infos} {n d : Str} (h : Fallen infos n) (hd : Dependent infos n d) :
    Fallen infos d := by
  obtain ⟨s, hs, hreach⟩ := h
  exact ⟨s, hs, hreach.tail hd⟩

/-! ## The first loop -/

theorem mem_push (name : Str) (l : List Str) (m : Dependents) (n d : Str) :
    d ∈ (l.foldl (fun m dname => m.assign dname (name :: ·)) m).index n ↔
      d ∈ m.index n ∨ d = name ∧ n ∈ l := by
  induction l generalizing m with
  | nil => simp
  | cons dname l ih =>
    rw [List.foldl_cons, ih, OrdMap.index_assign, List.mem_cons]
    split
    next h =>
      subst h
      rw [List.mem_cons]
      tauto
    next h =>
      have hne : n ≠ dname := Ne.symm h
      tauto

theorem push_nonempty (name : Str) (l : List Str) {m : Dependents} (hm : ∀ n ∈ m, m.index n ≠ []) :
    ∀ n ∈ l.foldl (fun m dname => m.assign dname (name :: ·)) m,
      (l.foldl (fun m dname => m.assign dname (name :: ·)) m).index n ≠ [] := by
  induction l generalizing m with
  | nil => exact hm
  | cons dname l ih =>
    apply ih
    intro n hn
    rw [OrdMap.index_assign]
    split
    next => exact List.cons_ne_nil _ _
    next h => exact hm n ((OrdMap.mem_assign.mp hn).resolve_left h)

section Tables

variable (o : Orders) (version : Str) (infos : Infos)

theorem mem_note (t : Tables) (name n d : Str) :
    d ∈ (note o version infos t name).dependsOn.index n ↔
      d ∈ t.dependsOn.index n ∨ d = name ∧ Dependent infos n d := by
  unfold note
  split
  next h =>
    constructor
    · exact Or.inl
    · rintro (hd | ⟨rfl, info, hinfo, -⟩)
      · exact hd
      · rw [h] at hinfo
        contradiction
  next pinfo h =>
    rw [mem_push, o.mem_list, ExtTreeMap.mem_keys]
    apply or_congr_right
    apply and_congr_right
    rintro rfl
    constructor
    · exact fun hn => ⟨pinfo, h, hn⟩
    · rintro ⟨info, hinfo, hn⟩
      rw [h] at hinfo
      cases hinfo
      exact hn

theorem mem_notes (names : List Str) (t : Tables) (n d : Str) :
    d ∈ (names.foldl (note o version infos) t).dependsOn.index n ↔
      d ∈ t.dependsOn.index n ∨ d ∈ names ∧ Dependent infos n d := by
  induction names generalizing t with
  | nil => simp
  | cons name names ih =>
    rw [List.foldl_cons, ih, mem_note, List.mem_cons]
    tauto

/-- What the first loop leaves. -/
structure Noted (t : Tables) : Prop where
  nonempty : ∀ n ∈ t.dependsOn, t.dependsOn.index n ≠ []
  unmarked : ∀ n, t.remove.index n = false

theorem noted_note {t : Tables} (ht : Noted t) (name : Str) : Noted (note o version infos t name) := by
  unfold note
  split
  · exact ht
  · refine ⟨push_nonempty name _ ht.nonempty, ?_⟩
    intro n
    dsimp only
    split
    · rw [OrdMap.index_put]
      split
      · rfl
      · exact ht.unmarked n
    · exact ht.unmarked n

theorem noted_tables : Noted (tables o version infos) := by
  have hfold : ∀ (names : List Str) (t : Tables), Noted t →
      Noted (names.foldl (note o version infos) t) := by
    intro names
    induction names with
    | nil => exact fun t ht => ht
    | cons name names ih => exact fun t ht => ih _ (noted_note o version infos ht name)
  apply hfold
  exact ⟨fun n hn => absurd hn ExtTreeMap.not_mem_empty, fun n => OrdMap.index_empty n⟩

/-- **What the first loop notes** is who depends on whom. -/
theorem mem_dependsOn (n d : Str) :
    d ∈ (tables o version infos).dependsOn.index n ↔ Dependent infos n d := by
  unfold tables
  rw [mem_notes, o.mem_list, ExtTreeMap.mem_keys]
  constructor
  · rintro (hd | ⟨-, hd⟩)
    · simp [default] at hd
    · exact hd
  · intro hd
    refine Or.inr ⟨?_, hd⟩
    obtain ⟨info, hinfo, -⟩ := hd
    exact ExtTreeMap.isSome_getElem?_iff_mem.mp (by rw [hinfo, Option.isSome_some])

theorem edge_dependsOn :
    Graph.Edge (tables o version infos).dependsOn.index = Dependent infos := by
  funext n d
  exact propext (mem_dependsOn o version infos n d)

end Tables

/-! ## The second loop -/

section Check

variable {o : Orders} {infos : Infos} {dependsOn : Dependents}

theorem checkDependences_of_broken (fuel : Nat) (dname : Str) {pinfo : PluginInfo} {remove : Remove}
    {l : List Str} (h : ∃ depN ∈ l, broken infos remove pinfo depN = true) :
    checkDependences infos dependsOn fuel dname pinfo remove l =
      recursiveDependencesFallDown dependsOn fuel dname remove := by
  induction l with
  | nil => simp at h
  | cons depN l ih =>
    rw [checkDependences]
    split
    next => rfl
    next hnot =>
      apply ih
      obtain ⟨depN', hmem, hbroken⟩ := h
      rcases List.mem_cons.mp hmem with rfl | hmem
      · exact absurd hbroken hnot
      · exact ⟨depN', hmem, hbroken⟩

theorem checkDependences_of_whole (fuel : Nat) (dname : Str) {pinfo : PluginInfo} {remove : Remove}
    {l : List Str} (h : ∀ depN ∈ l, broken infos remove pinfo depN = false) :
    checkDependences infos dependsOn fuel dname pinfo remove l = some remove := by
  induction l with
  | nil => rfl
  | cons depN l ih =>
    rw [checkDependences, h depN List.mem_cons_self, if_neg Bool.false_ne_true]
    exact ih fun depN' h' => h depN' (List.mem_cons_of_mem _ h')

/-- The table with which the check of a plugin starts. -/
def marking (infos : Infos) (remove : Remove) (dname : Str) : Remove :=
  if missing infos dname then remove.insert dname true else remove

theorem marking_iff (remove : Remove) (dname b : Str) :
    (marking infos remove dname).index b = true ↔
      b = dname ∧ missing infos dname = true ∨ remove.index b = true := by
  unfold marking
  split
  next h =>
    rw [show remove.insert dname true = mark dname remove from rfl, mark_iff]
    simp [h]
  next h => simp [h]

/-- The plugin is marked, or a dependence of it is broken. -/
def Fails (infos : Infos) (remove : Remove) (dname : Str) : Prop :=
  remove.index dname = true ∨
    ∃ pinfo, infos[dname]? = some pinfo ∧ ∃ depN ∈ pinfo.dependences, broken infos remove pinfo depN = true

theorem check_of_fails {fuel : Nat} {remove : Remove} {dname : Str} (hne : dependsOn.index dname ≠ [])
    (h : Fails infos (marking infos remove dname) dname) :
    check o infos dependsOn fuel remove dname =
      recursiveDependencesFallDown dependsOn fuel dname (marking infos remove dname) := by
  unfold check
  rw [← marking]
  dsimp only
  rw [if_neg hne]
  split
  next => rfl
  next hunmarked =>
    obtain ⟨pinfo, hpinfo, depN, hmem, hbroken⟩ := h.resolve_left hunmarked
    rw [hpinfo]
    apply checkDependences_of_broken
    exact ⟨depN, o.mem_list.mpr (ExtTreeMap.mem_keys.mpr hmem), hbroken⟩

theorem check_of_not_fails {fuel : Nat} {remove : Remove} {dname : Str}
    (hne : dependsOn.index dname ≠ []) (h : ¬ Fails infos (marking infos remove dname) dname) :
    check o infos dependsOn fuel remove dname = some (marking infos remove dname) := by
  obtain ⟨hunmarked, hwhole⟩ := not_or.mp h
  unfold check
  rw [← marking]
  dsimp only
  rw [if_neg hne, if_neg hunmarked]
  split
  next hnone =>
    exact absurd ((marking_iff remove dname dname).mpr (Or.inl ⟨rfl, by rw [missing, hnone]⟩)) hunmarked
  next pinfo hpinfo =>
    apply checkDependences_of_whole
    intro depN hmem
    by_contra hbroken
    refine hwhole ⟨pinfo, hpinfo, depN, ?_, by simpa using hbroken⟩
    exact ExtTreeMap.mem_keys.mp (o.mem_list.mp hmem)

/-- Only plugins that fall are marked. -/
def Justified (infos : Infos) (remove : Remove) : Prop := ∀ b, remove.index b = true → Fallen infos b

theorem fails_of_seed {remove : Remove} {dname : Str} (h : Seed infos dname) :
    Fails infos (marking infos remove dname) dname := by
  rcases h.2 with hmissing | ⟨pinfo, dep, dinfo, hpinfo, hmem, hdinfo, hrange⟩
  · exact Or.inl ((marking_iff remove dname dname).mpr (Or.inl ⟨rfl, hmissing⟩))
  · refine Or.inr ⟨pinfo, hpinfo, dep, hmem, ?_⟩
    rw [broken, hdinfo]
    simp [hrange]

variable (hD : Graph.Edge dependsOn.index = Dependent infos)

include hD

theorem exists_dependent {dname : Str} (hne : dependsOn.index dname ≠ []) : ∃ d, Dependent infos dname d := by
  obtain ⟨d, hd⟩ := List.exists_mem_of_ne_nil _ hne
  exact ⟨d, hD ▸ (show Graph.Edge dependsOn.index dname d from hd)⟩

theorem justified_marking {remove : Remove} (hr : Justified infos remove) {dname : Str}
    (hne : dependsOn.index dname ≠ []) : Justified infos (marking infos remove dname) := by
  intro b hb
  rcases (marking_iff remove dname b).mp hb with ⟨rfl, hmissing⟩ | hb
  · exact ⟨b, ⟨exists_dependent hD hne, Or.inl hmissing⟩, Relation.ReflTransGen.refl⟩
  · exact hr b hb

theorem fallen_of_fails {remove : Remove} (hr : Justified infos remove) {dname : Str}
    (hne : dependsOn.index dname ≠ []) (h : Fails infos remove dname) : Fallen infos dname := by
  rcases h with hmarked | ⟨pinfo, hpinfo, depN, hmem, hbroken⟩
  · exact hr dname hmarked
  have hdep : Dependent infos depN dname := ⟨pinfo, hpinfo, hmem⟩
  unfold broken at hbroken
  split at hbroken
  next hnone =>
    -- the dependence is not registered, and is a seed itself
    have hseed : Seed infos depN := ⟨⟨dname, hdep⟩, Or.inl (by rw [missing, hnone])⟩
    exact Fallen.dependent ⟨depN, hseed, Relation.ReflTransGen.refl⟩ hdep
  next dinfo hdinfo =>
    rcases Bool.or_eq_true_iff.mp hbroken with hmarked | hrange
    · exact (hr depN hmarked).dependent hdep
    · refine ⟨dname, ⟨exists_dependent hD hne, Or.inr ?_⟩, Relation.ReflTransGen.refl⟩
      exact ⟨pinfo, depN, dinfo, hpinfo, hmem, hdinfo, by simpa using hrange⟩

theorem falls_iff (s d : Str) : Falls dependsOn s d ↔ Relation.ReflTransGen (Dependent infos) s d := by
  rw [Falls, Graph.Reach, hD]

/-- **What the check of one plugin does** when it returns. -/
theorem check_spec {fuel : Nat} {remove remove' : Remove} {dname : Str}
    (hne : dependsOn.index dname ≠ []) (hr : Justified infos remove)
    (h : check o infos dependsOn fuel remove dname = some remove') :
    Justified infos remove' ∧ (∀ b, remove.index b = true → remove'.index b = true) ∧
      (Seed infos dname → ∀ b, Falls dependsOn dname b →
        remove'.index b = true ∧ ¬ Circular dependsOn b) := by
  have hmarking := justified_marking hD hr hne
  have hkeep : ∀ b, remove.index b = true → (marking infos remove dname).index b = true :=
    fun b hb => (marking_iff remove dname b).mpr (Or.inr hb)
  by_cases hfails : Fails infos (marking infos remove dname) dname
  · rw [check_of_fails hne hfails] at h
    have hmarks := fallDown_marks h
    have hfallen := fallen_of_fails hD hmarking hne hfails
    refine ⟨?_, ?_, ?_⟩
    · intro b hb
      rcases (hmarks b).mp hb with hreach | hb
      · obtain ⟨s, hs, hsd⟩ := hfallen
        exact ⟨s, hs, hsd.trans ((falls_iff hD dname b).mp hreach)⟩
      · exact hmarking b hb
    · exact fun b hb => (hmarks b).mpr (Or.inr (hkeep b hb))
    · intro _ b hb
      exact ⟨(hmarks b).mpr (Or.inl hb), (fallDown_returns_iff _ _ _).mp ⟨fuel, remove', h⟩ b hb⟩
  · rw [check_of_not_fails hne hfails] at h
    cases h
    exact ⟨hmarking, hkeep, fun hseed => absurd (fails_of_seed hseed) hfails⟩

theorem checks_spec {fuel : Nat} {names : List Str} (hne : ∀ n ∈ names, dependsOn.index n ≠ [])
    {remove remove' : Remove} (hr : Justified infos remove)
    (h : names.foldlM (check o infos dependsOn fuel) remove = some remove') :
    Justified infos remove' ∧ (∀ b, remove.index b = true → remove'.index b = true) ∧
      ∀ n ∈ names, Seed infos n → ∀ b, Falls dependsOn n b →
        remove'.index b = true ∧ ¬ Circular dependsOn b := by
  induction names generalizing remove with
  | nil =>
    cases h
    exact ⟨hr, fun b hb => hb, fun n hn => absurd hn List.not_mem_nil⟩
  | cons name names ih =>
    rw [List.foldlM_cons, Option.bind_eq_bind, Option.bind_eq_some_iff] at h
    obtain ⟨remove₁, hcheck, hrest⟩ := h
    obtain ⟨hr₁, hmono₁, hseed₁⟩ := check_spec hD (hne name List.mem_cons_self) hr hcheck
    obtain ⟨hr', hmono', hseed'⟩ := ih (fun n hn => hne n (List.mem_cons_of_mem _ hn)) hr₁ hrest
    refine ⟨hr', fun b hb => hmono' b (hmono₁ b hb), ?_⟩
    intro n hn hseed b hb
    rcases List.mem_cons.mp hn with rfl | hn
    · obtain ⟨hmarked, hcycle⟩ := hseed₁ hseed b hb
      exact ⟨hmono' b hmarked, hcycle⟩
    · exact hseed' n hn hseed b hb

/-- No plugin that falls depends on itself. -/
def Acyclic (infos : Infos) : Prop :=
  ∀ name, Fallen infos name → ¬ Relation.TransGen (Dependent infos) name name

theorem check_returns (hacyclic : Acyclic infos) {dname : Str} (hne : dependsOn.index dname ≠ []) :
    ∃ n, ∀ fuel, n ≤ fuel → ∀ remove, Justified infos remove →
      ∃ remove', check o infos dependsOn fuel remove dname = some remove' := by
  by_cases hfallen : Fallen infos dname
  · have hbelow : ∀ b, Falls dependsOn dname b → ¬ Circular dependsOn b := by
      intro b hb hcycle
      obtain ⟨s, hs, hsd⟩ := hfallen
      apply hacyclic b ⟨s, hs, hsd.trans ((falls_iff hD dname b).mp hb)⟩
      rwa [Circular, Graph.OnCycle, hD] at hcycle
    obtain ⟨n, hn⟩ := @Graph.walk_of_acc _ _ _ mark _
      (Graph.acc_of_not_onCycle (finite_dependents dependsOn) hbelow)
    refine ⟨n, fun fuel hfuel remove hr => ?_⟩
    by_cases hfails : Fails infos (marking infos remove dname) dname
    · obtain ⟨remove', hwalk⟩ := hn (marking infos remove dname)
      refine ⟨remove', ?_⟩
      rw [check_of_fails hne hfails, recursiveDependencesFallDown_eq]
      exact Graph.walk_mono hfuel hwalk
    · exact ⟨_, check_of_not_fails hne hfails⟩
  · refine ⟨0, fun fuel _ remove hr => ⟨_, check_of_not_fails hne fun hfails => ?_⟩⟩
    exact hfallen (fallen_of_fails hD (justified_marking hD hr hne) hne hfails)

theorem checks_return (hacyclic : Acyclic infos) {names : List Str}
    (hne : ∀ n ∈ names, dependsOn.index n ≠ []) :
    ∃ n, ∀ fuel, n ≤ fuel → ∀ remove, Justified infos remove →
      ∃ remove', names.foldlM (check o infos dependsOn fuel) remove = some remove' := by
  induction names with
  | nil => exact ⟨0, fun fuel _ remove _ => ⟨remove, rfl⟩⟩
  | cons name names ih =>
    have hname := hne name List.mem_cons_self
    obtain ⟨n, hn⟩ := @check_returns o infos dependsOn hD hacyclic name hname
    obtain ⟨k, hk⟩ := ih fun n hn => hne n (List.mem_cons_of_mem _ hn)
    refine ⟨max n k, fun fuel hfuel remove hr => ?_⟩
    obtain ⟨remove₁, hcheck⟩ := hn fuel (le_of_max_le_left hfuel) remove hr
    obtain ⟨remove', hrest⟩ := hk fuel (le_of_max_le_right hfuel) remove₁
      (check_spec hD hname hr hcheck).1
    refine ⟨remove', ?_⟩
    rw [List.foldlM_cons, Option.bind_eq_bind, Option.bind_eq_some_iff]
    exact ⟨remove₁, hcheck, hrest⟩

end Check

/-! ## What is left -/

theorem getElem?_removeMarked (remove : Remove) (names : List Str) (infos : Infos) (x : Str) :
    (names.foldl (removeMarked remove) infos)[x]? =
      if x ∈ names ∧ remove.index x = true then none else infos[x]? := by
  induction names generalizing infos with
  | nil => simp
  | cons name names ih =>
    rw [List.foldl_cons, ih]
    unfold removeMarked
    by_cases hmarked : remove.index name = true
    · rw [if_pos hmarked, OrdMap.getElem?_cut]
      by_cases hx : name = x
      · subst hx
        simp [hmarked]
      · simp [hx, Ne.symm hx]
    · rw [if_neg hmarked]
      by_cases hx : x = name
      · subst hx
        simp [hmarked]
      · simp [hx]

theorem loadPlugins_eq (answer : Str → Int) (infos : Infos) (names : List Str)
    (results : List (Str × Int)) :
    loadPlugins answer infos names = some results ↔
      (∀ name ∈ names, ∃ info, infos[name]? = some info ∧ info.plugin = true) ∧
        results = names.map fun name => (name, answer name) := by
  induction names generalizing results with
  | nil =>
    constructor
    · rintro ⟨⟩
      exact ⟨fun _ h => absurd h List.not_mem_nil, rfl⟩
    · rintro ⟨-, rfl⟩
      rfl
  | cons name names ih =>
    rw [loadPlugins]
    split
    next hnone => simp [hnone]
    next info hinfo =>
      split
      next hplugin =>
        rw [Option.map_eq_some_iff]
        simp only [ih, List.forall_mem_cons, List.map_cons, hinfo]
        constructor
        · rintro ⟨results', ⟨hall, rfl⟩, rfl⟩
          exact ⟨⟨⟨info, rfl, hplugin⟩, hall⟩, rfl⟩
        · rintro ⟨⟨-, hall⟩, rfl⟩
          exact ⟨_, ⟨hall, rfl⟩, rfl⟩
      next hplugin => simp [hinfo, hplugin]

/-- The plugins that are left are for this version of the server, and what each of them depends on is
left too, loaded without an error and in range. -/
def Closed (version : Str) (l : Loaded) : Prop :=
  ∀ (name : Str) info, l.infos[name]? = some info →
    info.compatible version = true ∧
      ∀ dep ∈ info.dependences, ∃ dinfo, l.infos[dep]? = some dinfo ∧ (dep, 0) ∈ l.results ∧
        inRange dinfo (info.dependences.index dep) = true

/-- What `load` needs: of the plugins that do not fall each one has its `Plugin` object, is for this
version of the server, has dependences that load, and, when nothing depends on it, has them in range. -/
structure Loadable (version : Str) (answer : Str → Int) (infos : Infos) : Prop where
  acyclic : Acyclic infos
  plugin : ∀ (name : Str) info, infos[name]? = some info → ¬ Fallen infos name → info.plugin = true
  compatible : ∀ (name : Str) info, infos[name]? = some info → ¬ Fallen infos name →
    info.compatible version = true
  loads : ∀ (name : Str) info, infos[name]? = some info → ¬ Fallen infos name →
    ∀ dep ∈ info.dependences, answer dep = 0
  range : ∀ name, ¬ Fallen infos name → (¬ ∃ d, Dependent infos name d) → ¬ OutOfRange infos name

section Load

variable {o : Orders} {version : Str} {answer : Str → Int} {infos : Infos}

theorem justified_tables : Justified infos (tables o version infos).remove := by
  intro b hb
  rw [(noted_tables o version infos).unmarked b] at hb
  contradiction

theorem index_ne_nil {n : Str} (hn : n ∈ o.list .dependsOn (tables o version infos).dependsOn.keys) :
    (tables o version infos).dependsOn.index n ≠ [] :=
  (noted_tables o version infos).nonempty n (ExtTreeMap.mem_keys.mp (o.mem_list.mp hn))

theorem mem_list_of_seed {s : Str} (hs : Seed infos s) :
    s ∈ o.list .dependsOn (tables o version infos).dependsOn.keys := by
  obtain ⟨d, hd⟩ := hs.1
  apply o.mem_list.mpr
  apply ExtTreeMap.mem_keys.mpr
  by_contra hnot
  have hmem := (mem_dependsOn o version infos s d).mpr hd
  rw [OrdMap.index_of_not_mem hnot] at hmem
  exact List.not_mem_nil hmem

/-- **The second loop marks what falls**, and does not return when a cycle falls. -/
theorem checks_mark {fuel : Nat} {remove : Remove}
    (h : (o.list .dependsOn (tables o version infos).dependsOn.keys).foldlM
      (check o infos (tables o version infos).dependsOn fuel) (tables o version infos).remove =
        some remove) :
    Acyclic infos ∧ ∀ b, remove.index b = true ↔ Fallen infos b := by
  have hD := edge_dependsOn o version infos
  obtain ⟨hjust, -, hseed⟩ := checks_spec hD (fun _ => index_ne_nil) justified_tables h
  constructor
  · rintro name ⟨s, hs, hreach⟩ hcycle
    apply (hseed s (mem_list_of_seed hs) hs name ((falls_iff hD s name).mpr hreach)).2
    rwa [Circular, Graph.OnCycle, hD]
  · intro b
    constructor
    · exact hjust b
    · rintro ⟨s, hs, hreach⟩
      exact (hseed s (mem_list_of_seed hs) hs b ((falls_iff hD s b).mpr hreach)).1

/-- The plugins after the third loop. -/
theorem getElem?_left {remove : Remove} (hmarks : ∀ b, remove.index b = true ↔ Fallen infos b) (x : Str) :
    (Fallen infos x →
      ((o.list .remove remove.keys).foldl (removeMarked remove) infos)[x]? = none) ∧
    (¬ Fallen infos x →
      ((o.list .remove remove.keys).foldl (removeMarked remove) infos)[x]? = infos[x]?) := by
  rw [getElem?_removeMarked]
  constructor
  · intro hfallen
    have hmarked := (hmarks x).mpr hfallen
    rw [if_pos]
    refine ⟨o.mem_list.mpr (ExtTreeMap.mem_keys.mpr ?_), hmarked⟩
    by_contra hnot
    rw [OrdMap.index_of_not_mem hnot] at hmarked
    contradiction
  · intro hstays
    exact if_neg fun h => hstays ((hmarks x).mp h.2)

/-- **What `load` leaves** when it returns. -/
structure Leaves (answer : Str → Int) (infos : Infos) (l : Loaded) : Prop where
  gone : ∀ x : Str, Fallen infos x → l.infos[x]? = none
  stays : ∀ x : Str, ¬ Fallen infos x → l.infos[x]? = infos[x]?
  plugin : ∀ (x : Str) info, l.infos[x]? = some info → info.plugin = true
  results : ∀ (x : Str) r, (x, r) ∈ l.results ↔ x ∈ l.infos ∧ r = answer x

theorem load_leaves {fuel : Nat} {l : Loaded} (h : load o version answer fuel infos = some l) :
    Acyclic infos ∧ Leaves answer infos l := by
  unfold load at h
  simp only [Option.bind_eq_bind, Option.bind_eq_some_iff, Option.pure_def, Option.some.injEq] at h
  obtain ⟨remove, hchecks, results, hresults, rfl⟩ := h
  obtain ⟨hacyclic, hmarks⟩ := checks_mark hchecks
  obtain ⟨hplugin, rfl⟩ := (loadPlugins_eq ..).mp hresults
  refine ⟨hacyclic, fun x => (getElem?_left hmarks x).1, fun x => (getElem?_left hmarks x).2, ?_, ?_⟩
  · intro x info hinfo
    have hmem := ExtTreeMap.isSome_getElem?_iff_mem.mp (by rw [hinfo, Option.isSome_some])
    obtain ⟨info', hinfo', hp⟩ := hplugin x (o.mem_list.mpr (ExtTreeMap.mem_keys.mpr hmem))
    dsimp only at hinfo
    rw [hinfo'] at hinfo
    cases hinfo
    exact hp
  · intro x r
    simp only [List.mem_map, o.mem_list, ExtTreeMap.mem_keys, Prod.mk.injEq]
    constructor
    · rintro ⟨name, hname, rfl, rfl⟩
      exact ⟨hname, rfl⟩
    · rintro ⟨hx, rfl⟩
      exact ⟨x, hx, rfl, rfl⟩

theorem load_returns (hacyclic : Acyclic infos)
    (hplugin : ∀ (x : Str) info, infos[x]? = some info → ¬ Fallen infos x → info.plugin = true) :
    ∃ fuel l, load o version answer fuel infos = some l := by
  obtain ⟨n, hn⟩ := @checks_return o infos _ (edge_dependsOn o version infos) hacyclic
    (o.list .dependsOn (tables o version infos).dependsOn.keys) (fun _ => index_ne_nil)
  obtain ⟨remove, hchecks⟩ := hn n (Nat.le_refl n) _ justified_tables
  obtain ⟨-, hmarks⟩ := checks_mark hchecks
  have hload := (loadPlugins_eq answer ((o.list .remove remove.keys).foldl (removeMarked remove) infos)
    (o.list .loading ((o.list .remove remove.keys).foldl (removeMarked remove) infos).keys) _).mpr
    ⟨by
      intro name hname
      have hmem := ExtTreeMap.mem_keys.mp (o.mem_list.mp hname)
      obtain ⟨info, hinfo⟩ := Option.isSome_iff_exists.mp (ExtTreeMap.isSome_getElem?_iff_mem.mpr hmem)
      have hleft := @getElem?_left o infos remove hmarks name
      by_cases hfallen : Fallen infos name
      · rw [hleft.1 hfallen] at hinfo
        contradiction
      · exact ⟨info, hinfo, hplugin name info (by rw [← hleft.2 hfallen, hinfo]) hfallen⟩, rfl⟩
  refine ⟨n, ?_⟩
  unfold load
  simp only [Option.bind_eq_bind, hchecks, Option.bind_some, hload]
  exact ⟨_, rfl⟩

/-- A plugin that does not fall keeps what it depends on. -/
theorem dependence_stays {name dep : Str} {info : PluginInfo} (hinfo : infos[name]? = some info)
    (hfallen : ¬ Fallen infos name) (hdep : dep ∈ info.dependences) :
    ¬ Fallen infos dep ∧ ∃ dinfo, infos[dep]? = some dinfo := by
  have hdependent : Dependent infos dep name := ⟨info, hinfo, hdep⟩
  have hstays : ¬ Fallen infos dep := fun h => hfallen (h.dependent hdependent)
  refine ⟨hstays, ?_⟩
  by_contra hnone
  have hmissing : missing infos dep = true := by
    rw [missing]
    cases h : infos[dep]? with
    | none => rfl
    | some dinfo => exact absurd ⟨dinfo, h⟩ hnone
  exact hstays ⟨dep, ⟨⟨name, hdependent⟩, Or.inl hmissing⟩, Relation.ReflTransGen.refl⟩

/-- A plugin that does not fall, and on which another depends, has its dependences in range. -/
theorem not_outOfRange {name : Str} (hfallen : ¬ Fallen infos name) (hd : ∃ d, Dependent infos name d) :
    ¬ OutOfRange infos name :=
  fun h => hfallen ⟨name, ⟨hd, Or.inr h⟩, Relation.ReflTransGen.refl⟩

end Load

/-- **When loading is dependency closed.** `load` returns with a closed set of plugins. -/
theorem load_closed_iff (o : Orders) (version : Str) (answer : Str → Int) (infos : Infos) :
    (∃ fuel l, load o version answer fuel infos = some l ∧ Closed version l) ↔
      Loadable version answer infos := by
  constructor
  · rintro ⟨fuel, l, hload, hclosed⟩
    obtain ⟨hacyclic, hleaves⟩ := load_leaves hload
    have hstays : ∀ (name : Str) info, infos[name]? = some info → ¬ Fallen infos name →
        l.infos[name]? = some info := fun name info h hf => (hleaves.stays name hf).trans h
    refine ⟨hacyclic, ?_, ?_, ?_, ?_⟩
    · exact fun name info h hf => hleaves.plugin name info (hstays name info h hf)
    · exact fun name info h hf => (hclosed name info (hstays name info h hf)).1
    · intro name info h hf dep hdep
      obtain ⟨dinfo, -, hresult, -⟩ := (hclosed name info (hstays name info h hf)).2 dep hdep
      exact ((hleaves.results dep 0).mp hresult).2.symm
    · rintro name hf - ⟨info, dep, dinfo, h, hdep, hdinfo, hrange⟩
      obtain ⟨dinfo', hdinfo', -, hin⟩ := (hclosed name info (hstays name info h hf)).2 dep hdep
      rw [hleaves.stays dep (dependence_stays h hf hdep).1, hdinfo] at hdinfo'
      cases hdinfo'
      rw [hrange] at hin
      contradiction
  · intro hok
    obtain ⟨fuel, l, hload⟩ := @load_returns o version answer infos hok.acyclic hok.plugin
    obtain ⟨-, hleaves⟩ := load_leaves hload
    refine ⟨fuel, l, hload, ?_⟩
    intro name info hinfo
    have hf : ¬ Fallen infos name := by
      intro hf
      rw [hleaves.gone name hf] at hinfo
      contradiction
    have h : infos[name]? = some info := by rw [← hleaves.stays name hf, hinfo]
    refine ⟨hok.compatible name info h hf, fun dep hdep => ?_⟩
    obtain ⟨hdf, dinfo, hdinfo⟩ := dependence_stays h hf hdep
    have hleft : l.infos[dep]? = some dinfo := (hleaves.stays dep hdf).trans hdinfo
    have hin : ¬ OutOfRange infos name := by
      by_cases hd : ∃ d, Dependent infos name d
      · exact not_outOfRange hf hd
      · exact hok.range name hf hd
    refine ⟨dinfo, hleft, (hleaves.results dep 0).mpr ⟨?_, (hok.loads name info h hf dep hdep).symm⟩, ?_⟩
    · exact ExtTreeMap.isSome_getElem?_iff_mem.mp (by rw [hleft, Option.isSome_some])
    · by_contra hrange
      exact hin ⟨info, dep, dinfo, h, hdep, hdinfo, by simpa using hrange⟩

/-- A plugin for the servers from 2.0.0.0 to 3.0.0.0, without dependences. -/
def newerServer : PluginInfo := ⟨toInt (pack 1 0 0 0), toInt (pack 2 0 0 0), toInt (pack 3 0 0 0), true, ∅⟩

/-- It is still registered on version 0.9.2. -/
theorem not_load_closed :
    ¬ ∀ (o : Orders) (version : Str) (answer : Str → Int) (infos : Infos),
      ∃ fuel l, load o version answer fuel infos = some l ∧ Closed version l := by
  intro h
  let infos : Infos := (∅ : Infos).insert (ascii "a") newerServer
  obtain ⟨fuel, l, hload, hclosed⟩ :=
    h ⟨fun _ keys => keys, fun _ keys => List.Perm.refl keys⟩ (ascii "0.9.2") (fun _ => 0) infos
  have hinfo : infos[ascii "a"]? = some newerServer := by
    rw [OrdMap.getElem?_put, if_pos rfl]
  have hf : ¬ Fallen infos (ascii "a") := by
    rintro ⟨s, ⟨⟨d, info, hd, hdep⟩, -⟩, -⟩
    rw [OrdMap.getElem?_put] at hd
    split at hd
    · cases hd
      exact ExtTreeMap.not_mem_empty hdep
    · simp at hd
  have hleft : l.infos[ascii "a"]? = some newerServer :=
    ((load_leaves hload).2.stays _ hf).trans hinfo
  have hcompatible := (hclosed _ _ hleft).1
  revert hcompatible
  decide

end MyServer.Plugin
