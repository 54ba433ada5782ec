import MyServer.Lib.Descent
import MyServer.MyserverGet.Versions

/-!
# The dependences of a plugin (myserver-get, general.py)

`__recursiveDependencesChecker` looks the dependences of a plugin up in the lists, compares the versions, and goes
on with what it found. It has no list of what was seen: it comes back when no cycle lies below, and a plugin that
two others need is in the result twice.
-/

open Relation

namespace MyServer.MyserverGet

/-- A `DEPENDS` element. An attribute that is missing raises when it is asked for. -/
structure Dependence where
  value : Option Str
  minVersion : Option Str
  maxVersion : Option Str
deriving DecidableEq

/-- A `PLUGIN` element. -/
structure PluginInfo where
  name : Option Str
  version : Option Str
  minVersion : Str
  maxVersion : Str
  depends : List Dependence
deriving DecidableEq

structure ListManager where
  repository : Str
  plugins : List PluginInfo
deriving DecidableEq

/-- A plugin and the list that has it. -/
abbrev Entry := PluginInfo × ListManager

/-- A plugin and what is said about it. -/
abbrev Complaint := PluginInfo × Str

def entries (lists : List ListManager) : List Entry := lists.flatMap fun list => list.plugins.map fun plugin => (plugin, list)

def findIn : List Entry → Str → Option (Option Entry)
  | [], _ => some none
  | entry :: rest, arg => do
    let name ← entry.1.name
    if name.map toLower = arg.map toLower then return some entry else findIn rest arg

/-- `__find`. `none` is an exception, `some none` is a name that no list has. -/
def find (lists : List ListManager) (arg : Str) : Option (Option Entry) := findIn (entries lists) arg

def missing (value : Str) : Str := ascii "Missing dependence: " ++ value

def mismatch (value version rootVersion minVersion maxVersion : Str) : Str :=
  value ++ version ++ ascii " is going to be installed, but " ++ rootVersion ++ ascii " requires version > " ++
    minVersion ++ ascii " and version < " ++ maxVersion

def recursiveDependencesChecker (lists : List ListManager) :
    Nat → PluginInfo → Option (List Entry × List Complaint)
  -- the interpreter raises when too many calls are open
  | 0, _ => none
  | depth + 1, pluginRoot => pluginRoot.depends.foldlM (fun found dep => do
      let value ← dep.value
      match ← find lists value with
      | none => return (found.1, found.2 ++ [(pluginRoot, missing value)])
      | some entry =>
        let minVersion ← dep.minVersion
        let maxVersion ← dep.maxVersion
        let version ← entry.1.version
        if ← inRange version minVersion maxVersion then
          let below ← recursiveDependencesChecker lists depth entry.1
          return (found.1 ++ entry :: below.1, found.2 ++ below.2)
        else
          let rootVersion ← pluginRoot.version
          return (found.1, found.2 ++ [(pluginRoot, mismatch value version rootVersion minVersion maxVersion)]))
      ([], [])

/-! ## As a descent -/

/-- What becomes of one dependence. -/
def judged (lists : List ListManager) (pluginRoot : PluginInfo) (dep : Dependence) :
    Option (Descent.Item Entry Complaint) := do
  let value ← dep.value
  match ← find lists value with
  | none => return .note (pluginRoot, missing value)
  | some entry =>
    let minVersion ← dep.minVersion
    let maxVersion ← dep.maxVersion
    let version ← entry.1.version
    if ← inRange version minVersion maxVersion then return .enter entry
    else
      let rootVersion ← pluginRoot.version
      return .note (pluginRoot, mismatch value version rootVersion minVersion maxVersion)

def items (lists : List ListManager) (entry : Entry) : List (Descent.Item Entry Complaint) :=
  entry.1.depends.map fun dep => (judged lists entry.1 dep).getD .stop

/-- **The checker is a descent** along the dependences that are met. -/
theorem checker_eq (lists : List ListManager) (depth : Nat) (entry : Entry) :
    recursiveDependencesChecker lists depth entry.1 = Descent.descend (items lists) depth entry := by
  induction depth generalizing entry with
  | zero => rfl
  | succ depth ih =>
    unfold recursiveDependencesChecker Descent.descend
    rw [items, List.foldlM_map]
    congr 1
    funext found dep
    unfold judged
    cases dep.value with
    | none => rfl
    | some value =>
      simp only [Option.bind_eq_bind, Option.bind_some]
      cases find lists value with
      | none => rfl
      | some looked =>
        cases looked with
        | none => rfl
        | some below =>
          simp only [Option.bind_some]
          cases dep.minVersion with
          | none => rfl
          | some minVersion =>
            cases dep.maxVersion with
            | none => rfl
            | some maxVersion =>
              cases below.1.version with
              | none => rfl
              | some version =>
                simp only [Option.bind_some]
                cases inRange version minVersion maxVersion with
                | none => rfl
                | some inside =>
                  cases inside with
                  | true =>
                    change (recursiveDependencesChecker lists depth below.1).bind _ = _
                    rw [ih]
                    exact Option.map_eq_bind.symm
                  | false => cases entry.1.version <;> rfl

/-! ## Dependences between the plugins of the lists -/

/-- A dependence of the one is met by the other. -/
def Requires (lists : List ListManager) : Entry → Entry → Prop := Graph.Edge (Descent.next (items lists))

/-- An element or an attribute is missing that is needed for one of the dependences, or a version is no number. -/
def Raises (lists : List ListManager) (entry : Entry) : Prop := ∃ dep ∈ entry.1.depends, judged lists entry.1 dep = none

def Complains (lists : List ListManager) (entry : Entry) (complaint : Complaint) : Prop :=
  ∃ dep ∈ entry.1.depends, judged lists entry.1 dep = some (.note complaint)

theorem mem_of_findIn {l : List Entry} {arg : Str} {entry : Entry} (h : findIn l arg = some (some entry)) :
    entry ∈ l := by
  induction l with
  | nil => simp [findIn] at h
  | cons e l ih =>
    unfold findIn at h
    obtain ⟨name, -, h⟩ := Option.bind_eq_some_iff.mp h
    split_ifs at h
    · cases h
      exact List.mem_cons_self
    · exact List.mem_cons_of_mem _ (ih h)

/-- What is made of a dependence when nothing raises. -/
theorem judged_cases {lists : List ListManager} {root : PluginInfo} {dep : Dependence}
    {item : Descent.Item Entry Complaint} (h : judged lists root dep = some item) :
    (∃ message, item = .note (root, message)) ∨
      ∃ value entry, dep.value = some value ∧ find lists value = some (some entry) ∧ item = .enter entry := by
  unfold judged at h
  obtain ⟨value, hvalue, h⟩ := Option.bind_eq_some_iff.mp h
  obtain ⟨looked, hlooked, h⟩ := Option.bind_eq_some_iff.mp h
  cases looked with
  | none =>
    cases h
    exact Or.inl ⟨_, rfl⟩
  | some entry =>
    simp only [Option.bind_eq_bind, Option.bind_eq_some_iff] at h
    obtain ⟨_, -, _, -, _, -, inside, -, h⟩ := h
    split_ifs at h
    · cases h
      exact Or.inr ⟨value, entry, hvalue, hlooked, rfl⟩
    · obtain ⟨_, -, h⟩ := Option.bind_eq_some_iff.mp h
      cases h
      exact Or.inl ⟨_, rfl⟩

theorem mem_items_iff {lists : List ListManager} {entry : Entry} {item : Descent.Item Entry Complaint} :
    item ∈ items lists entry ↔ ∃ dep ∈ entry.1.depends, (judged lists entry.1 dep).getD .stop = item := List.mem_map

theorem stop_mem_iff {lists : List ListManager} {entry : Entry} :
    Descent.Item.stop ∈ items lists entry ↔ Raises lists entry := by
  rw [mem_items_iff]
  refine exists_congr fun dep => and_congr_right fun _ => ?_
  cases hjudged : judged lists entry.1 dep with
  | none => simp
  | some item => rcases judged_cases hjudged with ⟨message, rfl⟩ | ⟨_, _, -, -, rfl⟩ <;> simp

theorem note_mem_iff {lists : List ListManager} {entry : Entry} {complaint : Complaint} :
    Descent.Item.note complaint ∈ items lists entry ↔ Complains lists entry complaint := by
  rw [mem_items_iff]
  refine exists_congr fun dep => and_congr_right fun _ => ?_
  cases judged lists entry.1 dep <;> simp

theorem requires_iff {lists : List ListManager} {p q : Entry} :
    Requires lists p q ↔ ∃ dep ∈ p.1.depends, judged lists p.1 dep = some (.enter q) := by
  have hmem : Requires lists p q ↔ Descent.Item.enter q ∈ items lists p := Descent.mem_next
  rw [hmem, mem_items_iff]
  refine exists_congr fun dep => and_congr_right fun _ => ?_
  cases judged lists p.1 dep <;> simp

/-- What is required is in the lists. -/
theorem requires_mem {lists : List ListManager} {p q : Entry} (h : Requires lists p q) : q ∈ entries lists := by
  obtain ⟨dep, -, hdep⟩ := requires_iff.mp h
  obtain ⟨message, hnote⟩ | ⟨value, entry, -, hfind, henter⟩ := judged_cases hdep
  · cases hnote
  · cases henter
    exact mem_of_findIn hfind

theorem finite_reach (lists : List ListManager) (root : Entry) :
    {p | Graph.Reach (Descent.next (items lists)) root p}.Finite := by
  refine (List.finite_toSet (root :: entries lists)).subset fun p hp => ?_
  rcases ReflTransGen.cases_tail_iff _ _ _ |>.mp hp with rfl | ⟨_, -, hlast⟩
  · exact List.mem_cons_self
  · exact List.mem_cons_of_mem _ (requires_mem hlast)

/-! ## What the checker does -/

/-- **When the checker comes back**: exactly when no plugin that is required, directly or not, requires itself, and
when nothing raises at one of them. -/
theorem checker_returns_iff (lists : List ListManager) (root : Entry) :
    (∃ depth found, recursiveDependencesChecker lists depth root.1 = some found) ↔
      ∀ p, ReflTransGen (Requires lists) root p → ¬ TransGen (Requires lists) p p ∧ ¬ Raises lists p := by
  simp only [checker_eq, ← stop_mem_iff]
  exact Descent.descend_ends_iff (finite_reach lists root)

/-- Two dependences of the plugin lead to a common one. -/
def Shared (lists : List ListManager) (p : Entry) : Prop := ¬ Descent.Unshared (items lists) p

/-- **What the checker brings back**: the plugins that are required, directly or not, the complaints about all
their dependences, and nothing else. A plugin comes twice exactly when two dependences of one of them lead to a
common one. -/
theorem checker_found {lists : List ListManager} {depth : Nat} {root : Entry} {result : List Entry}
    {errors : List Complaint} (h : recursiveDependencesChecker lists depth root.1 = some (result, errors)) :
    (∀ p, p ∈ result ↔ TransGen (Requires lists) root p) ∧
      (∀ complaint, complaint ∈ errors ↔ ∃ p, ReflTransGen (Requires lists) root p ∧ Complains lists p complaint) ∧
      (result.Nodup ↔ ∀ p, ReflTransGen (Requires lists) root p → ¬ Shared lists p) := by
  rw [checker_eq] at h
  refine ⟨Descent.mem_fst_iff h, fun complaint => ?_, ?_⟩
  · simp only [← note_mem_iff]
    exact Descent.mem_snd_iff h complaint
  · simp only [Shared, not_not]
    exact Descent.nodup_fst_iff h

/-- A list in which `python` requires `base`. -/
def smallList : ListManager where
  repository := ascii "http://r"
  plugins :=
    [⟨some (ascii "python"), some (ascii "1"), [], ascii "9", [⟨some (ascii "base"), some (ascii "1"), some (ascii "3")⟩]⟩,
      ⟨some (ascii "base"), some (ascii "2"), [], ascii "9", []⟩]

def pythonEntry : Entry := (smallList.plugins.head (by decide), smallList)

def baseEntry : Entry := (smallList.plugins.getLast (by decide), smallList)

theorem checker_found_base : TransGen (Requires [smallList]) pythonEntry baseEntry :=
  ((@checker_found _ 3 _ _ [] (by decide +kernel)).1 baseEntry).mp (List.mem_singleton_self baseEntry)

end MyServer.MyserverGet
