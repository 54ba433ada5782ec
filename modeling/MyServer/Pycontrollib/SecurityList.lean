import MyServer.Pycontrollib.Lxml

/-!
# Security files in the control library (security.py, definition.py)

What `from_lxml_element` makes of an element, and the element that `to_lxml_element` makes of that. To read
an element takes its known attributes away from it, also where it is then given up and kept as it is.
-/

namespace MyServer.Pycontrollib

/-! ## Definitions -/

inductive Definition where
  | element (name : Option Str) (attributes : Attrib)
  | tree (name : Option Str) (attributes : Attrib) (definitions : List Definition) (custom : Forest)

/-- The order in which `iteritems` goes through a `dict`. -/
structure DictOrder where
  order : List (QName × Str) → List (QName × Str)
  perm : ∀ items, (order items).Perm items

/-- What reading has taken from elements like these. -/
def Forest.read : Forest → Forest
  | .nil => .nil
  | .comment tail next => .comment tail next.read
  | .element tag attrib text children tail next =>
    if tag = plain "DEFINE" then .element tag (attrib.pop (plain "name")).2 text children.read tail next.read
    else .element tag attrib text children tail next.read

/-- `Definition.from_lxml_element` on a DEFINE, with what its children are read as. A `KeyError` leaves what
the element is by then. -/
def Definition.fromLxmlElement (attrib : Attrib) (children : Forest)
    (definitions : Except Forest (List Definition × Forest)) : Except (Attrib × Forest) Definition :=
  let (name, attributes) := attrib.pop (plain "name")
  match children with
  | .nil => .ok (.element name attributes)
  | _ =>
    match definitions with
    | .error children => .error (attributes, children)
    | .ok (definitions, custom) =>
      -- `value is not an allowed key`
      if plain "value" ∈ attributes.keys then .error (attributes, children.read)
      else .ok (.tree name attributes definitions custom)

/-- `map (Definition.from_lxml_element, list (root))`: the definitions, and what is none. -/
def Forest.definitions : Forest → Except Forest (List Definition × Forest)
  | .nil => .ok ([], .nil)
  | .comment tail next =>
    match next.definitions with
    | .error next => .error (.comment tail next)
    | .ok (definitions, custom) => .ok (definitions, .comment tail custom)
  | .element tag attrib text children tail next =>
    if tag = plain "DEFINE" then
      match Definition.fromLxmlElement attrib children children.definitions with
      | .error (attrib, children) => .error (.element tag attrib text children tail next)
      | .ok definition =>
        match next.definitions with
        | .error next => .error (.element tag (attrib.pop (plain "name")).2 text children.read tail next)
        | .ok (definitions, custom) => .ok (definition :: definitions, custom)
    else
      match next.definitions with
      | .error next => .error (.element tag attrib text children tail next)
      | .ok (definitions, custom) => .ok (definitions, .element tag attrib text children tail custom)

section

variable (dict : DictOrder)

/-- The attributes of a definition that is written. -/
def Definition.attrib (name : Option Str) (attributes : Attrib) : Attrib :=
  (Attrib.empty.update (dict.order attributes.items)).setIf (plain "name") name

mutual

def Definition.toLxmlElement : Definition → Element
  | .element name attributes => ⟨plain "DEFINE", Definition.attrib dict name attributes, [], .nil⟩
  | .tree name attributes definitions custom =>
    ⟨plain "DEFINE", Definition.attrib dict name attributes, [], appendDefinitions definitions custom⟩

def appendDefinitions : List Definition → Forest → Forest
  | [], custom => custom
  | definition :: definitions, custom => definition.toLxmlElement.inFront (appendDefinitions definitions custom)

end

end

/-! ## Flags -/

/-- `upper () == 'YES'`. Of the other letters only the long s has one of these for its capital. -/
def isYes (value : Str) : Bool :=
  value.map toLower = ascii "yes" ∨ value.map toLower = ascii "ye" ++ [0xC5, 0xBF]

structure Flags where
  read : Option Bool
  execute : Option Bool
  browse : Option Bool
  delete : Option Bool
  write : Option Bool

namespace Flags

/-- Popped from the attributes. -/
def pop (attrib : Attrib) : Flags × Attrib :=
  let (read, attrib) := attrib.pop (plain "READ")
  let (execute, attrib) := attrib.pop (plain "EXECUTE")
  let (browse, attrib) := attrib.pop (plain "BROWSE")
  let (delete, attrib) := attrib.pop (plain "DELETE")
  let (write, attrib) := attrib.pop (plain "WRITE")
  (⟨read.map isYes, execute.map isYes, browse.map isYes, delete.map isYes, write.map isYes⟩, attrib)

def yesOrNo (flag : Bool) : Str := if flag then ascii "YES" else ascii "NO"

def set (flags : Flags) (attrib : Attrib) : Attrib :=
  let attrib := attrib.setIf (plain "READ") (flags.read.map yesOrNo)
  let attrib := attrib.setIf (plain "EXECUTE") (flags.execute.map yesOrNo)
  let attrib := attrib.setIf (plain "BROWSE") (flags.browse.map yesOrNo)
  let attrib := attrib.setIf (plain "DELETE") (flags.delete.map yesOrNo)
  attrib.setIf (plain "WRITE") (flags.write.map yesOrNo)

end Flags

/-! ## Security elements -/

inductive SecurityElement where
  | user (name password : Option Str) (flags : Flags) (custom : Forest) (customAttrib : Attrib)
  | condition (name value : Option Str) (reverse regex : Option Bool) (subElements : List SecurityElement)
      (custom : Forest) (customAttrib : Attrib)
  | permission (flags : Flags) (custom : Forest) (customAttrib : Attrib)
  | ret (value : Option Str) (custom : Forest) (customAttrib : Attrib)
  | definition (definition : Definition)

namespace SecurityElement

/-- `User.from_lxml_element`. -/
def readUser (attrib : Attrib) (children : Forest) : SecurityElement :=
  let (name, attrib) := attrib.pop (plain "name")
  let (password, attrib) := attrib.pop (plain "password")
  let (flags, attrib) := Flags.pop attrib
  .user name password flags children attrib

/-- `Condition.from_lxml_element`, with what the children are read as. -/
def readCondition (attrib : Attrib) (children : List SecurityElement × Forest) : SecurityElement :=
  let (name, attrib) := attrib.pop (plain "name")
  let (value, attrib) := attrib.pop (plain "value")
  let (reverse, attrib) := attrib.pop (plain "not")
  let (regex, attrib) := attrib.pop (plain "regex")
  .condition name value (reverse.map isYes) (regex.map isYes) children.1 children.2 attrib

/-- `Permission.from_lxml_element`. -/
def readPermission (attrib : Attrib) (children : Forest) : SecurityElement :=
  let (flags, attrib) := Flags.pop attrib
  .permission flags children attrib

/-- `Return.from_lxml_element`. -/
def readReturn (attrib : Attrib) (children : Forest) : SecurityElement :=
  let (value, attrib) := attrib.pop (plain "value")
  .ret value children attrib

/-- What is left of the element when it is not allowed in security files, or when reading it fails. -/
def fromLxmlElement (tag : QName) (attrib : Attrib) (children : Forest)
    (elements : List SecurityElement × Forest) : Except (Attrib × Forest) SecurityElement :=
  if tag = plain "USER" then .ok (readUser attrib children)
  else if tag = plain "CONDITION" then .ok (readCondition attrib elements)
  else if tag = plain "PERMISSION" then .ok (readPermission attrib children)
  else if tag = plain "RETURN" then .ok (readReturn attrib children)
  else if tag = plain "DEFINE" then
    (Definition.fromLxmlElement attrib children children.definitions).map .definition
  else .error (attrib, children)

end SecurityElement

/-- The loop over `list (root)`, for the elements and for what cannot be read. -/
def Forest.elements : Forest → List SecurityElement × Forest
  | .nil => ([], .nil)
  | .comment tail next => (next.elements.1, .comment tail next.elements.2)
  | .element tag attrib text children tail next =>
    match SecurityElement.fromLxmlElement tag attrib children children.elements with
    | .ok read => (read :: next.elements.1, next.elements.2)
    | .error (attrib, children) => (next.elements.1, .element tag attrib text children tail next.elements.2)

section

variable (dict : DictOrder)

mutual

def SecurityElement.toLxmlElement : SecurityElement → Element
  | .user name password flags custom customAttrib =>
    let attrib := (Attrib.empty.setIf (plain "name") name).setIf (plain "password") password
    ⟨plain "USER", (flags.set attrib).update customAttrib.items, [], custom⟩
  | .condition name value reverse regex subElements custom customAttrib =>
    let attrib := (Attrib.empty.setIf (plain "name") name).setIf (plain "value") value
    let attrib := attrib.setIf (plain "not") (reverse.map fun b => if b then ascii "yes" else ascii "no")
    let attrib := attrib.setIf (plain "regex") (regex.map fun b => if b then ascii "yes" else ascii "no")
    ⟨plain "CONDITION", attrib.update customAttrib.items, [], appendElements subElements custom⟩
  | .permission flags custom customAttrib =>
    ⟨plain "PERMISSION", (flags.set .empty).update customAttrib.items, [], custom⟩
  | .ret value custom customAttrib =>
    ⟨plain "RETURN", (Attrib.empty.setIf (plain "value") value).update customAttrib.items, [], custom⟩
  | .definition definition => definition.toLxmlElement dict

def appendElements : List SecurityElement → Forest → Forest
  | [], custom => custom
  | element :: elements, custom => element.toLxmlElement.inFront (appendElements elements custom)

end

structure SecurityList where
  elements : List SecurityElement
  custom : Forest
  customAttrib : Attrib

namespace SecurityList

def fromLxmlElement (root : Element) : Option SecurityList :=
  if root.tag = plain "SECURITY" then some ⟨root.children.elements.1, root.children.elements.2, root.attrib⟩
  else none

def toLxmlElement (list : SecurityList) : Element :=
  ⟨plain "SECURITY", Attrib.empty.update list.customAttrib.items, [], appendElements dict list.elements list.custom⟩

end SecurityList

end

end MyServer.Pycontrollib
