import MyServer.HashMap.Refinement
import MyServer.Pycontrollib.SavedAttributes

/-!
# Configurations (xml_conf.cpp, config.py)

The server keeps the trees of a configuration, and a table of the nodes that have a name. The library keeps
definitions and looks for a name when it is asked for one.
-/

open MyServer.HashMap (Mapping lookup_insert_eq)
open MyServer.Security

namespace MyServer.Pycontrollib

/-! ## The server -/

structure NodeTree where
  value : Option Str
  attrs : List (Str × Str)
  children : List NodeTree

def NodeTree.getAttr (n : NodeTree) (name : Str) : Option Str := (n.attrs.find? (·.1 = name)).map Prod.snd

/-- What is read of the attributes of a DEFINE. -/
structure Attributes where
  name : Option Str
  value : Option Str
  attrs : List (Str × Str)

/-- `none` where an attribute has no content: it is not looked at for a name or a value, and then read. -/
def readAttr (r : Attributes) (a : XmlAttr) : Option Attributes :=
  if a.name = ascii "name" ∧ a.content.isSome then some { r with name := a.content }
  else if a.name = ascii "value" ∧ a.content.isSome then some { r with value := a.content }
  else a.content.map fun content => { r with attrs := r.attrs ++ [(a.name, content)] }

def readAttrs (properties : List XmlAttr) : Option Attributes := properties.foldlM readAttr ⟨none, none, []⟩

/-- The nodes of the siblings from `lcur` on, and the nodes that are put, in this order. -/
def readNode : XmlNode → Option (List NodeTree × List (Str × NodeTree))
  | .null => some ([], [])
  | .other next => readNode next
  | .element name properties children next =>
    if name = ascii "DEFINE" then do
      let r ← readAttrs properties
      let (below, puts) ← readNode children
      let (nodes, later) ← readNode next
      let node : NodeTree := ⟨r.value, r.attrs, below⟩
      some (node :: nodes, (r.name.map (·, node)).toList ++ puts ++ later)
    else readNode next

def putAll (puts : List (Str × NodeTree)) (hashedData : Mapping NodeTree) : Mapping NodeTree :=
  puts.foldl (fun m e => m.insert e.1 e.2) hashedData

def build (root : XmlNode) : Option (List NodeTree × Mapping NodeTree) :=
  (readNode root).map fun (rootNodes, puts) => (rootNodes, putAll puts ∅)

/-- `XmlMainConfiguration::readData`. -/
def readData (root : Element) : Option (List NodeTree × Mapping NodeTree) := build root.view.children

/-- `Server::getData`; `none` where the node has no value to take the text of. -/
def getData (hashedData : Mapping NodeTree) (name : Str) (defValue : Option Str) : Option (Option Str) :=
  match hashedData.lookup name with
  | none => some defValue
  | some s => s.value.map some

/-! ## The library -/

structure MyServerConfig where
  definitions : List Definition
  custom : Forest

namespace MyServerConfig

def fromLxmlElement (root : Element) : Option MyServerConfig :=
  if root.tag = plain "MYSERVER" then
    match root.children.definitions with
    | .error _ => none
    | .ok (definitions, custom) => some ⟨definitions, custom⟩
  else none

def toLxmlElement (dict : DictOrder) (config : MyServerConfig) : Element :=
  ⟨plain "MYSERVER", .empty, [], appendDefinitions dict config.definitions config.custom⟩

end MyServerConfig

mutual

def Definition.searchByName (name : Option Str) : Definition → Option Definition
  | .element own attributes => if name ≠ own then none else some (.element own attributes)
  | .tree own attributes definitions custom =>
    match searchByName name definitions with
    | some ret => some ret
    | none => if name ≠ own then none else some (.tree own attributes definitions custom)

/-- `for definition in reversed (definitions)`. -/
def searchByName (name : Option Str) : List Definition → Option Definition
  | [] => none
  | definition :: definitions =>
    match searchByName name definitions with
    | some ret => some ret
    | none => definition.searchByName name

end

/-! ## What a definition is to the server -/

def isOther (e : QName × Str) : Bool := e.1.name ≠ ascii "name" ∧ e.1.name ≠ ascii "value"

/-- The attributes that are kept as such. -/
def others (items : List (QName × Str)) : List (Str × Str) := (items.filter isOther).map fun e => (e.1.name, e.2)

section

variable (order : List (QName × Str) → List (QName × Str))

mutual

/-- The node, with the attributes in the order in which they are written. -/
def Definition.node : Definition → NodeTree
  | .element _ attributes => ⟨attributes.get (plain "value"), others (order attributes.items), []⟩
  | .tree _ attributes definitions _ =>
    ⟨attributes.get (plain "value"), others (order attributes.items), nodesOf definitions⟩

def nodesOf : List Definition → List NodeTree
  | [] => []
  | definition :: definitions => definition.node :: nodesOf definitions

end

mutual

def Definition.puts : Definition → List (Str × NodeTree)
  | .element own attributes => (own.map (·, Definition.node order (.element own attributes))).toList
  | .tree own attributes definitions custom =>
    (own.map (·, Definition.node order (.tree own attributes definitions custom))).toList ++ putsOf definitions

def putsOf : List Definition → List (Str × NodeTree)
  | [] => []
  | definition :: definitions => definition.puts ++ putsOf definitions

end

end

def filledAttributes (own : Option Str) (attributes : Attrib) : Bool :=
  own ≠ some [] ∧ ∀ e ∈ attributes.items, e.2 ≠ []

mutual

/-- No name and no attribute is empty, here and below. -/
def Definition.filled : Definition → Bool
  | .element own attributes => filledAttributes own attributes
  | .tree own attributes definitions _ => filledAttributes own attributes && filledAll definitions

def filledAll : List Definition → Bool
  | [] => true
  | definition :: definitions => definition.filled && filledAll definitions

end

/-- No namespaces, and no name besides the one that is kept apart. -/
def PlainAttributes (attributes : Attrib) : Prop := ∀ k ∈ attributes.keys, k.ns = none ∧ k.name ≠ ascii "name"

/-- Nothing that the server takes for a definition. -/
def Forest.Foreign : Forest → Prop
  | .nil => True
  | .comment _ next => next.Foreign
  | .element tag _ _ _ _ next => tag.name ≠ ascii "DEFINE" ∧ next.Foreign

mutual

def Definition.Plain : Definition → Prop
  | .element _ attributes => PlainAttributes attributes
  | .tree _ attributes definitions custom => PlainAttributes attributes ∧ PlainAll definitions ∧ custom.Foreign

def PlainAll : List Definition → Prop
  | [] => True
  | definition :: definitions => definition.Plain ∧ PlainAll definitions

end

/-- No definition has a namespace, and neither has an attribute of one. -/
def Forest.Unprefixed : Forest → Prop
  | .nil => True
  | .comment _ next => next.Unprefixed
  | .element tag attrib _ children _ next =>
    (tag.name = ascii "DEFINE" → tag.ns = none ∧ (∀ k ∈ attrib.keys, k.ns = none) ∧ children.Unprefixed) ∧
      next.Unprefixed

/-! ## The table and the search -/

section

variable {order : List (QName × Str) → List (QName × Str)}

theorem lookup_putAll_append (puts later : List (Str × NodeTree)) (m : Mapping NodeTree) :
    putAll (puts ++ later) m = putAll later (putAll puts m) := List.foldl_append

theorem lookup_putOwn (own : Option Str) (node : NodeTree) (m : Mapping NodeTree) (name : Str) :
    (putAll (own.map (·, node)).toList m).lookup name = if some name ≠ own then m.lookup name else some node := by
  cases own with
  | none => rfl
  | some own =>
    refine (lookup_insert_eq m own name node).trans ?_
    simp only [ne_eq, Option.some_inj, ite_not]

mutual

theorem Definition.lookup_puts (name : Str) (definition : Definition) (m : Mapping NodeTree) :
    (putAll (definition.puts order) m).lookup name =
      ((definition.searchByName (some name)).map (Definition.node order)).or (m.lookup name) := by
  match definition with
  | .element own attributes =>
    rw [Definition.puts, lookup_putOwn, Definition.searchByName]
    split_ifs <;> rfl
  | .tree own attributes definitions custom =>
    rw [Definition.puts, lookup_putAll_append, lookup_putsOf name definitions, lookup_putOwn, Definition.searchByName]
    cases searchByName (some name) definitions with
    | some ret => rfl
    | none =>
      dsimp only
      split_ifs <;> rfl

/-- The last one put is the first one found. -/
theorem lookup_putsOf (name : Str) (definitions : List Definition) (m : Mapping NodeTree) :
    (putAll (putsOf order definitions) m).lookup name =
      ((searchByName (some name) definitions).map (Definition.node order)).or (m.lookup name) := by
  match definitions with
  | [] => rw [putsOf, searchByName]; rfl
  | definition :: definitions =>
    rw [putsOf, lookup_putAll_append, lookup_putsOf name definitions, Definition.lookup_puts name definition,
      searchByName]
    cases searchByName (some name) definitions <;> rfl

end

end

/-! ## Attributes -/

section

variable {a : Attrib} {dict : DictOrder}

theorem readAttrs_go (attrs : List XmlAttr) (r : Attributes) :
    attrs.foldlM readAttr r =
      if attrs.all (·.content.isSome) then
        some ⟨(lastContent (ascii "name") attrs).or r.name, (lastContent (ascii "value") attrs).or r.value,
          r.attrs ++ attrs.filterMap fun a =>
            if a.name = ascii "name" ∨ a.name = ascii "value" then none else a.content.map (a.name, ·)⟩
      else none := by
  induction attrs generalizing r with
  | nil => simp [lastContent]
  | cons x attrs ih =>
    obtain ⟨name, content⟩ := x
    rw [List.foldlM_cons, readAttr]
    cases content with
    | none => simp
    | some content =>
      by_cases hname : name = ascii "name"
      · have hvalue : ascii "name" ≠ ascii "value" := by decide
        simp [hname, hvalue, ih, lastContent]
      · by_cases hvalue : name = ascii "value"
        · have hne : ascii "value" ≠ ascii "name" := by decide
          simp [hvalue, hne, ih, lastContent]
        · simp [hname, hvalue, ih, lastContent]

theorem filled_view (a : Attrib) : a.view.all (·.content.isSome) = true ↔ ∀ e ∈ a.items, e.2 ≠ [] := by
  have hcontent : ∀ e : QName × Str, (attrOf e).content.isSome = true ↔ e.2 ≠ [] := by
    intro e
    unfold attrOf
    split_ifs with he <;> simp [he]
  simp [Attrib.view, hcontent]

theorem content_unprefixed (hns : ∀ k ∈ a.keys, k.ns = none) (hfilled : ∀ e ∈ a.items, e.2 ≠ []) (n : Str) :
    lastContent n a.view = a.get ⟨none, n⟩ := by
  have hown : ∀ e ∈ entries n a, e.1 = ⟨none, n⟩ := by
    intro e he
    obtain ⟨hitem, hname⟩ := List.mem_filter.mp he
    exact QName.mk.injEq .. ▸ ⟨hns _ (List.mem_map_of_mem hitem), of_decide_eq_true hname⟩
  have hentries : entries n a = (own n a).toList := by
    rw [← filter_own]
    exact (List.filter_eq_self.mpr fun e he => decide_eq_true (hown e he)).symm
  rw [lastContent_view, hentries, own]
  cases hget : a.get ⟨none, n⟩ with
  | none => rfl
  | some v =>
    have hv : v ≠ [] := hfilled _ (Attrib.mem_items_iff.mpr hget)
    simp [lastContent, attrOf, hv]

theorem others_view {items : List (QName × Str)} (hfilled : ∀ e ∈ items, e.2 ≠ []) :
    ((items.map attrOf).filterMap fun a =>
      if a.name = ascii "name" ∨ a.name = ascii "value" then none else a.content.map (a.name, ·)) = others items := by
  unfold others
  induction items with
  | nil => rfl
  | cons e items ih =>
    obtain ⟨hhead, htail⟩ := List.forall_mem_cons.mp hfilled
    have hcontent : (attrOf e).content = some e.2 := if_neg hhead
    have hname : (attrOf e).name = e.1.name := rfl
    by_cases hother : isOther e = true
    · have hneither : ¬ (e.1.name = ascii "name" ∨ e.1.name = ascii "value") := by
        simpa [isOther, not_or] using hother
      simp [hcontent, hname, hneither, hother, ih htail]
    · have heither : e.1.name = ascii "name" ∨ e.1.name = ascii "value" := by
        by_contra hneither
        exact hother (by simpa [isOther, not_or] using hneither)
      simp [hname, heither, hother, ih htail]

theorem readAttrs_unprefixed (hns : ∀ k ∈ a.keys, k.ns = none) :
    readAttrs a.view =
      if ∀ e ∈ a.items, e.2 ≠ [] then some ⟨a.get (plain "name"), a.get (plain "value"), others a.items⟩ else none := by
  rw [readAttrs, readAttrs_go]
  by_cases hfilled : ∀ e ∈ a.items, e.2 ≠ []
  · have hothers := others_view hfilled
    rw [if_pos ((filled_view a).mpr hfilled), if_pos hfilled, content_unprefixed hns hfilled,
      content_unprefixed hns hfilled]
    simp only [Option.or_none, List.nil_append]
    exact congrArg (fun l => some (Attributes.mk _ _ l)) hothers
  · rw [if_neg fun hall => hfilled ((filled_view a).mp hall), if_neg hfilled]

/-- What the server reads of a definition. -/
def attributesOf (order : List (QName × Str) → List (QName × Str)) (own : Option Str) (attributes : Attrib) :
    Option Attributes :=
  if filledAttributes own attributes then
    some ⟨own, attributes.get (plain "value"), others (order attributes.items)⟩
  else none

theorem readAttrs_loaded (hns : ∀ k ∈ a.keys, k.ns = none) :
    readAttrs a.view = attributesOf id (a.get (plain "name")) (a.pop (plain "name")).2 := by
  have hothers : others (a.pop (plain "name")).2.items = others a.items := by
    have hname : ∀ e : QName × Str, (isOther e && decide (e.1 ≠ plain "name")) = isOther e := by
      intro e
      by_cases he : e.1 = plain "name"
      · simp [isOther, he, plain]
      · simp [he]
    unfold others Attrib.pop
    rw [List.filter_filter]
    simp only [hname]
  have hfilled : (∀ e ∈ a.items, e.2 ≠ []) ↔
      filledAttributes (a.get (plain "name")) (a.pop (plain "name")).2 = true := by
    unfold filledAttributes Attrib.pop
    simp only [List.mem_filter, decide_eq_true_eq, ne_eq, and_imp]
    constructor
    · intro hall
      exact ⟨fun hget => hall _ (Attrib.mem_items_iff.mpr hget) rfl, fun e he _ => hall e he⟩
    · rintro ⟨hname, hrest⟩ ⟨k, v⟩ he hv
      by_cases hk : k = plain "name"
      · subst hk
        exact hname (by rw [Attrib.mem_items_iff.mp he]; exact congrArg some hv)
      · exact hrest _ he hk hv
  have hvalue : (a.pop (plain "name")).2.get (plain "value") = a.get (plain "value") := get_pop_of_ne (by decide)
  rw [readAttrs_unprefixed hns, attributesOf, hvalue, id_eq, hothers]
  simp only [hfilled]

theorem items_attrib {own : Option Str} (hplain : PlainAttributes a) :
    (Definition.attrib dict own a).items = dict.order a.items ++ (own.map (plain "name", ·)).toList := by
  have hperm := dict.perm a.items
  have hnodup : ((dict.order a.items).map Prod.fst).Nodup := (hperm.map _).nodup_iff.mpr a.nodup
  have hitems : (Attrib.empty.update (dict.order a.items)).items = dict.order a.items :=
    items_update hnodup fun _ _ => rfl
  have hfree : (Attrib.empty.update (dict.order a.items)).get (plain "name") = none := by
    rw [Attrib.get_eq_none_iff, Attrib.keys, hitems]
    intro hmem
    exact (hplain _ ((hperm.map _).mem_iff.mp hmem)).2 rfl
  unfold Definition.attrib
  cases own with
  | none => rw [Attrib.setIf, Option.elim_none, hitems]; simp
  | some own => rw [Attrib.setIf, Option.elim_some, items_set hfree, hitems]; rfl

theorem readAttrs_saved {own : Option Str} (hplain : PlainAttributes a) :
    readAttrs (Definition.attrib dict own a).view = attributesOf dict.order own a := by
  have hitems := @items_attrib a dict own hplain
  have hmem : ∀ e, e ∈ dict.order a.items ↔ e ∈ a.items := fun e => (dict.perm a.items).mem_iff
  have hns : ∀ k ∈ (Definition.attrib dict own a).keys, k.ns = none := by
    intro k hk
    obtain ⟨e, he, rfl⟩ := List.mem_map.mp hk
    rw [hitems, List.mem_append, hmem] at he
    obtain he | he := he
    · exact (hplain _ (List.mem_map_of_mem he)).1
    · cases own with
      | none => cases he
      | some own => rw [List.mem_singleton.mp he]; rfl
  have hget : ∀ k v, (Definition.attrib dict own a).get k = some v ↔
      (k, v) ∈ a.items ∨ k = plain "name" ∧ own = some v := by
    intro k v
    rw [← Attrib.mem_items_iff, hitems, List.mem_append, hmem]
    refine or_congr_right ?_
    cases own <;> simp [eq_comm]
  have hname : (Definition.attrib dict own a).get (plain "name") = own := by
    refine Option.ext fun v => (hget _ v).trans ?_
    rw [or_iff_right, and_iff_right rfl]
    exact fun he => (hplain _ (List.mem_map_of_mem he)).2 rfl
  have hvalue : (Definition.attrib dict own a).get (plain "value") = a.get (plain "value") := by
    refine Option.ext fun v => (hget _ v).trans ?_
    rw [or_iff_left fun h => absurd h.1 (by decide), Attrib.mem_items_iff]
  have hothers : others (Definition.attrib dict own a).items = others (dict.order a.items) := by
    rw [hitems]
    cases own <;> simp [others, isOther, plain]
  have hfilled : (∀ e ∈ (Definition.attrib dict own a).items, e.2 ≠ []) ↔ filledAttributes own a = true := by
    simp only [hitems, List.mem_append, hmem, or_imp, forall_and, filledAttributes]
    cases own <;> simp [and_comm]
  rw [readAttrs_unprefixed hns, attributesOf, hname, hvalue, hothers]
  simp only [hfilled]

end

/-! ## Loading and saving -/

section

variable {dict : DictOrder}

@[simp] theorem readNode_textNode (text : Str) (next : XmlNode) : readNode (textNode text next) = readNode next := by
  unfold textNode
  split_ifs <;> rfl

theorem Forest.Foreign.readNode {f : Forest} (h : f.Foreign) : readNode f.view = some ([], []) := by
  induction f with
  | nil => rfl
  | comment tail next ih => exact (readNode_textNode tail _).trans (ih h)
  | element tag attrib text children tail next _ ih =>
    rw [Forest.view, Pycontrollib.readNode, if_neg h.1, readNode_textNode]
    exact ih h.2

/-- A DEFINE, by what is read of it, of its children and of what follows. -/
def defined (r : Option Attributes) (below later : Option (List NodeTree × List (Str × NodeTree))) :
    Option (List NodeTree × List (Str × NodeTree)) := do
  let r ← r
  let (below, puts) ← below
  let (nodes, later) ← later
  let node : NodeTree := ⟨r.value, r.attrs, below⟩
  some (node :: nodes, (r.name.map (·, node)).toList ++ puts ++ later)

theorem readNode_define (attrib : Attrib) (text : Str) (children : Forest) (tail : Str) (next : Forest) :
    readNode (Forest.element (plain "DEFINE") attrib text children tail next).view =
      defined (readAttrs attrib.view) (readNode children.view) (readNode next.view) := by
  have htag : (plain "DEFINE").name = ascii "DEFINE" := rfl
  rw [Forest.view, readNode, if_pos htag, readNode_textNode, readNode_textNode]
  rfl

/-- What the server reads of these definitions. -/
def readOf (order : List (QName × Str) → List (QName × Str)) (definitions : List Definition) :
    Option (List NodeTree × List (Str × NodeTree)) :=
  if filledAll definitions then some (nodesOf order definitions, putsOf order definitions) else none

/-- A definition in front of others, by what is read of each. -/
theorem readOf_cons {order : List (QName × Str) → List (QName × Str)} {own : Option Str} {attributes : Attrib}
    {definition : Definition} {below : List Definition} (definitions : List Definition)
    (hfilled : definition.filled = (filledAttributes own attributes && filledAll below))
    (hnode : definition.node order =
      ⟨attributes.get (plain "value"), others (order attributes.items), nodesOf order below⟩)
    (hputs : definition.puts order = (own.map (·, definition.node order)).toList ++ putsOf order below) :
    readOf order (definition :: definitions) =
      defined (attributesOf order own attributes) (readOf order below) (readOf order definitions) := by
  unfold readOf attributesOf defined
  rw [filledAll, hfilled, nodesOf, putsOf, hputs, hnode]
  by_cases hown : filledAttributes own attributes = true
  · by_cases hbelow : filledAll below = true
    · by_cases hlater : filledAll definitions = true
      · simp [hown, hbelow, hlater]
      · simp [hown, hbelow, hlater]
    · simp [hown, hbelow]
  · simp [hown]

theorem readOf_element {order : List (QName × Str) → List (QName × Str)} (own : Option Str) (attributes : Attrib)
    (definitions : List Definition) :
    readOf order (.element own attributes :: definitions) =
      defined (attributesOf order own attributes) (some ([], [])) (readOf order definitions) :=
  @readOf_cons _ _ _ _ [] definitions (by rw [Definition.filled, filledAll, Bool.and_true])
    (by rw [Definition.node, nodesOf]) (by rw [Definition.puts, putsOf, List.append_nil])

theorem readOf_tree {order : List (QName × Str) → List (QName × Str)} (own : Option Str) (attributes : Attrib)
    (below : List Definition) (custom : Forest) (definitions : List Definition) :
    readOf order (.tree own attributes below custom :: definitions) =
      defined (attributesOf order own attributes) (readOf order below) (readOf order definitions) :=
  readOf_cons definitions (by rw [Definition.filled]) (by rw [Definition.node]) (by rw [Definition.puts])

mutual

theorem Definition.readNode_inFront (definition : Definition) (definitions : List Definition) (h : definition.Plain)
    {next : Forest} (hnext : readNode next.view = readOf dict.order definitions) :
    readNode ((definition.toLxmlElement dict).inFront next).view = readOf dict.order (definition :: definitions) := by
  match definition with
  | .element own attributes =>
    rw [Definition.Plain] at h
    rw [Definition.toLxmlElement, Element.inFront, readNode_define, readAttrs_saved h, hnext, readOf_element]
    rfl
  | .tree own attributes below custom =>
    rw [Definition.Plain] at h
    obtain ⟨hattributes, hbelow, hcustom⟩ := h
    rw [Definition.toLxmlElement, Element.inFront, readNode_define, readAttrs_saved hattributes, hnext,
      readNode_append below hbelow hcustom, readOf_tree]

/-- What is written is read again. -/
theorem readNode_append (definitions : List Definition) (h : PlainAll definitions) {custom : Forest}
    (hcustom : custom.Foreign) :
    readNode (appendDefinitions dict definitions custom).view = readOf dict.order definitions := by
  match definitions with
  | [] =>
    rw [appendDefinitions, hcustom.readNode, readOf, filledAll, nodesOf, putsOf]
    rfl
  | definition :: definitions =>
    rw [PlainAll] at h
    rw [appendDefinitions]
    exact Definition.readNode_inFront definition definitions h.1 (readNode_append definitions h.2 hcustom)

end

theorem plain_popped {a : Attrib} (hns : ∀ k ∈ a.keys, k.ns = none) : PlainAttributes (a.pop (plain "name")).2 := by
  intro k hk
  obtain ⟨e, he, rfl⟩ := List.mem_map.mp hk
  obtain ⟨hitem, hne⟩ := List.mem_filter.mp he
  have hnone := hns _ (List.mem_map_of_mem hitem)
  refine ⟨hnone, fun hname => of_decide_eq_true hne ?_⟩
  rw [plain, ← hname, ← hnone]

/-- A DEFINE that is loaded is an element, or it has children that are loaded. -/
theorem fromLxmlElement_cases {a : Attrib} {children : Forest} {definition : Definition}
    (h : Definition.fromLxmlElement a children children.definitions = .ok definition) :
    (children = .nil ∧ definition = .element (a.get (plain "name")) (a.pop (plain "name")).2) ∨
      ∃ below custom, children.definitions = .ok (below, custom) ∧
        definition = .tree (a.get (plain "name")) (a.pop (plain "name")).2 below custom := by
  unfold Definition.fromLxmlElement at h
  dsimp only at h
  split at h
  · cases h
    exact Or.inl ⟨rfl, rfl⟩
  · right
    cases hbelow : children.definitions with
    | error left =>
      rw [hbelow] at h
      cases h
    | ok below =>
      rw [hbelow] at h
      dsimp only at h
      split_ifs at h
      cases h
      exact ⟨_, _, rfl, rfl⟩

theorem definitions_element {tag : QName} {a : Attrib} {text tail : Str} {children next : Forest}
    {definitions : List Definition} {custom : Forest}
    (h : (Forest.element tag a text children tail next).definitions = .ok (definitions, custom)) :
    ∃ later left, next.definitions = .ok (later, left) ∧
      ((tag = plain "DEFINE" ∧ custom = left ∧ ∃ definition,
          Definition.fromLxmlElement a children children.definitions = .ok definition ∧
            definitions = definition :: later) ∨
        (tag ≠ plain "DEFINE" ∧ custom = .element tag a text children tail left ∧ definitions = later)) := by
  rw [Forest.definitions] at h
  cases hnext : next.definitions with
  | error left =>
    rw [hnext] at h
    split_ifs at h
    split at h <;> cases h
  | ok r =>
    rw [hnext] at h
    refine ⟨r.1, r.2, rfl, ?_⟩
    split_ifs at h with htag
    · left
      split at h
      · cases h
      · rename_i definition hread
        cases h
        exact ⟨htag, rfl, definition, hread, rfl⟩
    · cases h
      exact Or.inr ⟨htag, rfl, rfl⟩

/-- **The library and the server read the same** of a file without namespaces. -/
theorem readNode_loaded {f : Forest} (h : f.Unprefixed) {definitions : List Definition} {custom : Forest}
    (hload : f.definitions = .ok (definitions, custom)) :
    PlainAll definitions ∧ custom.Foreign ∧ readNode f.view = readOf id definitions := by
  induction f generalizing definitions custom with
  | nil =>
    cases hload
    exact ⟨trivial, trivial, rfl⟩
  | comment tail next ih =>
    rw [Forest.definitions] at hload
    cases hnext : next.definitions with
    | error left =>
      rw [hnext] at hload
      cases hload
    | ok r =>
      rw [hnext] at hload
      cases hload
      obtain ⟨hplain, hforeign, hread⟩ := ih h hnext
      exact ⟨hplain, hforeign, (readNode_textNode tail _).trans hread⟩
  | element tag attrib text children tail next ihChildren ih =>
    obtain ⟨hdefine, hunprefixed⟩ := h
    obtain ⟨later, left, hnext, hcases⟩ := definitions_element hload
    obtain ⟨hplain, hforeign, hlater⟩ := ih hunprefixed hnext
    obtain ⟨rfl, rfl, definition, hread, rfl⟩ | ⟨htag, rfl, rfl⟩ := hcases
    · obtain ⟨-, hns, hchildren⟩ := hdefine rfl
      have hattributes := plain_popped hns
      rw [readNode_define, readAttrs_loaded hns, hlater]
      obtain ⟨rfl, rfl⟩ | ⟨below, left', hbelow, rfl⟩ := fromLxmlElement_cases hread
      · refine ⟨⟨hattributes, hplain⟩, hforeign, ?_⟩
        rw [readOf_element]
        rfl
      · obtain ⟨hplain', hforeign', hread'⟩ := ihChildren hchildren hbelow
        refine ⟨⟨⟨hattributes, hplain', hforeign'⟩, hplain⟩, hforeign, ?_⟩
        rw [hread', readOf_tree]
    · have hname : tag.name ≠ ascii "DEFINE" := by
        intro hname
        exact htag (by rw [plain, ← hname, ← (hdefine hname).1])
      refine ⟨hplain, ⟨hname, hforeign⟩, ?_⟩
      rw [Forest.view, readNode, if_neg hname, readNode_textNode]
      exact hlater

end

/-! ## Nodes that say the same -/

/-- The same value, the same attributes in whatever order, and children that say the same. -/
inductive NodeTree.SaysAs : NodeTree → NodeTree → Prop where
  | intro {n n' : NodeTree} (value : n.value = n'.value) (attrs : ∀ name, n.getAttr name = n'.getAttr name)
      (children : List.Forall₂ SaysAs n.children n'.children) : SaysAs n n'

section

variable {order order' : List (QName × Str) → List (QName × Str)}

theorem find_others (items : List (QName × Str)) (hns : ∀ e ∈ items, e.1.ns = none) (name : Str) :
    ((others items).find? (·.1 = name)).map Prod.snd =
      if name = ascii "name" ∨ name = ascii "value" then none
      else (items.find? (·.1 = ⟨none, name⟩)).map Prod.snd := by
  unfold others
  induction items with
  | nil => simp
  | cons e items ih =>
    obtain ⟨⟨ns, key⟩, v⟩ := e
    obtain ⟨hnone, hrest⟩ := List.forall_mem_cons.mp hns
    obtain rfl : ns = none := hnone
    have ih := ih hrest
    by_cases hkey : key = name
    · subst hkey
      by_cases hkept : key = ascii "name" ∨ key = ascii "value"
      · have hother : isOther (⟨none, key⟩, v) = false := by
          simpa [isOther, not_or, imp_iff_not_or] using hkept
        simpa [hother, hkept] using ih
      · have hother : isOther (⟨none, key⟩, v) = true := by
          simpa [isOther, not_or] using hkept
        simp [hother, hkept]
    · by_cases hother : isOther (⟨none, key⟩, v) = true
      · simpa [hother, hkey] using ih
      · simpa [hother, hkey] using ih

theorem getAttr_perm {a : Attrib} (hplain : PlainAttributes a) (horder : (order a.items).Perm a.items) (name : Str) :
    ((others (order a.items)).find? (·.1 = name)).map Prod.snd =
      if name = ascii "name" ∨ name = ascii "value" then none else a.get ⟨none, name⟩ := by
  have hns : ∀ e ∈ order a.items, e.1.ns = none := fun e he =>
    (hplain _ (List.mem_map_of_mem (horder.mem_iff.mp he))).1
  have hget : ((order a.items).find? (·.1 = ⟨none, name⟩)).map Prod.snd = a.get ⟨none, name⟩ :=
    @Attrib.get_congr ⟨order a.items, (horder.map _).nodup_iff.mpr a.nodup⟩ a _ _ fun v => horder.mem_iff
  rw [find_others _ hns, hget]

mutual

theorem Definition.node_saysAs (horder : ∀ items, (order items).Perm items)
    (horder' : ∀ items, (order' items).Perm items) (definition : Definition) (h : definition.Plain) :
    (definition.node order).SaysAs (definition.node order') := by
  match definition with
  | .element own attributes =>
    rw [Definition.Plain] at h
    rw [Definition.node, Definition.node]
    exact ⟨rfl, fun name => (getAttr_perm h (horder _) name).trans (getAttr_perm h (horder' _) name).symm, .nil⟩
  | .tree own attributes definitions custom =>
    rw [Definition.Plain] at h
    rw [Definition.node, Definition.node]
    exact ⟨rfl, fun name => (getAttr_perm h.1 (horder _) name).trans (getAttr_perm h.1 (horder' _) name).symm,
      nodesOf_sayAs horder horder' definitions h.2.1⟩

theorem nodesOf_sayAs (horder : ∀ items, (order items).Perm items)
    (horder' : ∀ items, (order' items).Perm items) (definitions : List Definition) (h : PlainAll definitions) :
    List.Forall₂ NodeTree.SaysAs (nodesOf order definitions) (nodesOf order' definitions) := by
  match definitions with
  | [] =>
    rw [nodesOf, nodesOf]
    exact .nil
  | definition :: definitions =>
    rw [PlainAll] at h
    rw [nodesOf, nodesOf]
    exact .cons (Definition.node_saysAs horder horder' definition h.1) (nodesOf_sayAs horder horder' definitions h.2)

end

mutual

theorem Definition.plain_found {name : Option Str} (definition : Definition) (h : definition.Plain) {ret : Definition}
    (hfound : definition.searchByName name = some ret) : ret.Plain := by
  match definition with
  | .element own attributes =>
    rw [Definition.searchByName] at hfound
    split_ifs at hfound
    cases hfound
    exact h
  | .tree own attributes definitions custom =>
    rw [Definition.searchByName] at hfound
    rw [Definition.Plain] at h
    split at hfound
    · rename_i found hbelow
      cases hfound
      exact plain_found definitions h.2.1 hbelow
    · split_ifs at hfound
      cases hfound
      rw [Definition.Plain]
      exact h

theorem plain_found {name : Option Str} (definitions : List Definition) (h : PlainAll definitions) {ret : Definition}
    (hfound : searchByName name definitions = some ret) : ret.Plain := by
  match definitions with
  | [] =>
    rw [searchByName] at hfound
    cases hfound
  | definition :: definitions =>
    rw [searchByName] at hfound
    rw [PlainAll] at h
    split at hfound
    · rename_i found hlater
      cases hfound
      exact plain_found definitions h.2 hlater
    · exact Definition.plain_found definition h.1 hfound

end

end

/-! ## Files -/

section

variable {dict : DictOrder} {root : Element} {config : MyServerConfig}

/-- A configuration of the library that can be written as one. -/
def MyServerConfig.Plain (config : MyServerConfig) : Prop := PlainAll config.definitions ∧ config.custom.Foreign

/-- The table that the server has of these definitions. -/
def hashedOf (order : List (QName × Str) → List (QName × Str)) (definitions : List Definition) : Mapping NodeTree :=
  putAll (putsOf order definitions) ∅

theorem lookup_hashedOf (order : List (QName × Str) → List (QName × Str)) (definitions : List Definition) (name : Str) :
    (hashedOf order definitions).lookup name =
      (searchByName (some name) definitions).map (Definition.node order) := by
  rw [hashedOf, lookup_putsOf, Finmap.lookup_empty, Option.or_none]

theorem readData_eq (root : Element) : readData root = (readNode root.children.view).map fun r => (r.1, putAll r.2 ∅) := by
  have hchildren : root.view.children = textNode root.text root.children.view := rfl
  rw [readData, build, hchildren, readNode_textNode]

theorem readData_of_readOf {order : List (QName × Str) → List (QName × Str)} {definitions : List Definition}
    (h : readNode root.children.view = readOf order definitions) :
    readData root =
      if filledAll definitions then some (nodesOf order definitions, hashedOf order definitions) else none := by
  rw [readData_eq, h, readOf]
  split_ifs <;> rfl

theorem config_loaded (hunprefixed : root.children.Unprefixed) (hload : MyServerConfig.fromLxmlElement root = some config) :
    config.Plain ∧ readNode root.children.view = readOf id config.definitions := by
  unfold MyServerConfig.fromLxmlElement at hload
  split_ifs at hload
  split at hload
  · cases hload
  · rename_i definitions custom hdefinitions
    cases hload
    obtain ⟨hplain, hforeign, hread⟩ := readNode_loaded hunprefixed hdefinitions
    exact ⟨⟨hplain, hforeign⟩, hread⟩

/-- A language for the server and another one for a log. -/
def sample : Element :=
  ⟨plain "MYSERVER", .empty, [ch '\n'],
    .element (plain "DEFINE")
      ⟨[(plain "name", ascii "language"), (plain "value", ascii "en")], by decide⟩ [] .nil [ch '\n']
    (.comment [ch '\n']
    (.element (plain "DEFINE") ⟨[(plain "type", ascii "file"), (plain "name", ascii "log")], by decide⟩ []
      (.element (plain "DEFINE")
        ⟨[(plain "value", ascii "it"), (plain "name", ascii "language")], by decide⟩ [] .nil [] .nil) []
      .nil))⟩

def sampleConfig : MyServerConfig where
  definitions :=
    [.element (some (ascii "language")) ⟨[(plain "value", ascii "en")], by decide⟩,
      .tree (some (ascii "log")) ⟨[(plain "type", ascii "file")], by decide⟩
        [.element (some (ascii "language")) ⟨[(plain "value", ascii "it")], by decide⟩] .nil]
  custom := .comment [ch '\n'] .nil

theorem getData_of_saysAs {hashed hashed' : Mapping NodeTree} {name : Str}
    (h : Option.Rel NodeTree.SaysAs (hashed.lookup name) (hashed'.lookup name)) (defValue : Option Str) :
    getData hashed' name defValue = getData hashed name defValue := by
  unfold getData
  generalize hashed.lookup name = found at h ⊢
  generalize hashed'.lookup name = found' at h ⊢
  cases h with
  | none => rfl
  | some hsays =>
    obtain ⟨hvalue, -, -⟩ := hsays
    exact congrArg (Option.map some) hvalue.symm

end

end MyServer.Pycontrollib
