import MyServer.Lib.Graph
import MyServer.Lib.OrdMap
import MyServer.Plugin.Version

/-!
# Loading the plugins (plugins_manager.cpp)

`load` notes for each plugin who depends on it, marks what is missing or out of
range with everything that depends on it, removes the marked plugins and loads
the others. A `HashMap` is a finite map here, and `Orders` gives the order in
which its iterator goes through the keys.
-/

open Std

namespace MyServer.Plugin

structure PluginInfo where
  version : Int
  msMinVersion : Int
  msMaxVersion : Int
  /-- Whether there is a `Plugin` object: a plugin that only the configuration names has none. -/
  plugin : Bool
  dependences : OrdMap Str (Int × Int)

abbrev Infos := OrdMap Str PluginInfo
abbrev Dependents := OrdMap Str (List Str)
abbrev Remove := OrdMap Str Bool

inductive Loop where
  | plugins
  | dependences (name : Str)
  | dependsOn
  | remove
  | loading

structure Orders where
  list : Loop → List Str → List Str
  perm : ∀ loop keys, (list loop keys).Perm keys

theorem Orders.mem_list (o : Orders) {loop : Loop} {keys : List Str} {name : Str} :
    name ∈ o.list loop keys ↔ name ∈ keys := (o.perm loop keys).mem_iff

/-- A call of `recursiveDependencesFallDown` that is at most `fuel` calls deep. -/
def recursiveDependencesFallDown (dependsOn : Dependents) : Nat → Str → Remove → Option Remove
  | 0, _, _ => none
  | fuel + 1, name, remove =>
    let remove := remove.insert name true
    let dependsList := dependsOn.index name
    if dependsList = [] then some remove
    else
      dependsList.foldlM (fun remove name => recursiveDependencesFallDown dependsOn fuel name remove)
        remove

def PluginInfo.compatible (info : PluginInfo) (version : Str) : Bool :=
  info.msMinVersion ≤ serverVersion version ∧ serverVersion version ≤ info.msMaxVersion

structure Tables where
  remove : Remove
  dependsOn : Dependents

/-- The first loop. A plugin that is not compatible is not put into `remove`. -/
def note (o : Orders) (version : Str) (infos : Infos) (t : Tables) (name : Str) : Tables :=
  match infos[name]? with
  | none => t
  | some pinfo =>
    { remove := if pinfo.compatible version then t.remove.insert name false else t.remove
      dependsOn :=
        (o.list (.dependences name) pinfo.dependences.keys).foldl
          (fun dependsOn dname => dependsOn.assign dname (name :: ·)) t.dependsOn }

def inRange (dep : PluginInfo) (range : Int × Int) : Bool :=
  range.1 ≤ dep.version ∧ dep.version ≤ range.2

/-- Whether a dependence is missing, marked or out of range. -/
def broken (infos : Infos) (remove : Remove) (pinfo : PluginInfo) (depN : Str) : Bool :=
  match infos[depN]? with
  | none => true
  | some dep => remove.index depN || !inRange dep (pinfo.dependences.index depN)

/-- The inner loop ends at the first dependence that is broken. -/
def checkDependences (infos : Infos) (dependsOn : Dependents) (fuel : Nat) (dname : Str)
    (pinfo : PluginInfo) (remove : Remove) : List Str → Option Remove
  | [] => some remove
  | depN :: rest =>
    if broken infos remove pinfo depN then recursiveDependencesFallDown dependsOn fuel dname remove
    else checkDependences infos dependsOn fuel dname pinfo remove rest

/-- `!pinfo || pinfo->getVersion () == 0`. -/
def missing (infos : Infos) (dname : Str) : Bool :=
  match infos[dname]? with
  | none => true
  | some pinfo => pinfo.version = 0

/-- The second loop, over the plugins on which some plugin depends. -/
def check (o : Orders) (infos : Infos) (dependsOn : Dependents) (fuel : Nat) (remove : Remove)
    (dname : Str) : Option Remove :=
  let remove : Remove := if missing infos dname then remove.insert dname true else remove
  if dependsOn.index dname = [] then some remove
  else if remove.index dname then recursiveDependencesFallDown dependsOn fuel dname remove
  else
    match infos[dname]? with
    | none => none
    | some pinfo =>
      checkDependences infos dependsOn fuel dname pinfo remove
        (o.list (.dependences dname) pinfo.dependences.keys)

def removeMarked (remove : Remove) (infos : Infos) (name : Str) : Infos :=
  if remove.index name then infos.erase name else infos

structure Loaded where
  infos : Infos
  /-- What each `Plugin::load` returned. The value is not looked at. -/
  results : List (Str × Int)

/-- `(*it)->getPlugin ()->load (server)`, which needs the `Plugin` object. -/
def loadPlugins (answer : Str → Int) (infos : Infos) : List Str → Option (List (Str × Int))
  | [] => some []
  | name :: rest =>
    match infos[name]? with
    | none => none
    | some pinfo =>
      if pinfo.plugin then (loadPlugins answer infos rest).map ((name, answer name) :: ·) else none

def tables (o : Orders) (version : Str) (infos : Infos) : Tables :=
  (o.list .plugins infos.keys).foldl (note o version infos) ⟨∅, ∅⟩

/-- `none` stands for a recursion deeper than `fuel` and for a call through a null pointer. -/
def load (o : Orders) (version : Str) (answer : Str → Int) (fuel : Nat) (infos : Infos) :
    Option Loaded := do
  let t := tables o version infos
  let remove ← (o.list .dependsOn t.dependsOn.keys).foldlM (check o infos t.dependsOn fuel) t.remove
  let infos := (o.list .remove remove.keys).foldl (removeMarked remove) infos
  let results ← loadPlugins answer infos (o.list .loading infos.keys)
  return ⟨infos, results⟩

end MyServer.Plugin
