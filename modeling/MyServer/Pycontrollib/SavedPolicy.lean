import MyServer.Pycontrollib.SavedAttributes
import MyServer.Security.Validator

/-!
# Security files that are saved

Whatever the library does not know is moved behind what it knows. The server knows elements by their local
names, and passes over all others.
-/

open MyServer.Security

namespace MyServer.Pycontrollib

/-! ## What is kept -/

namespace Forest

def isNil : Forest → Bool
  | .nil => true
  | _ => false

/-- No DEFINE here has children and a value, nor has one inside it. -/
def Definable : Forest → Prop
  | .nil => True
  | .comment _ next => next.Definable
  | .element tag attrib _ children _ next =>
    (tag = plain "DEFINE" → children.isNil = false → plain "value" ∉ attrib.keys ∧ children.Definable) ∧
      next.Definable

/-- None of these names stands here without a namespace. -/
def NoOwn (names : List Str) : Forest → Prop
  | .nil => True
  | .comment _ next => next.NoOwn names
  | .element tag _ _ _ _ next => (tag.ns = none → tag.name ∉ names) ∧ next.NoOwn names

end Forest

/-- An element that says the same when it is saved. -/
structure Kept (tag : QName) (attrib : Attrib) (children : Forest) : Prop where
  condition : tag = plain "CONDITION" →
    InFront conditionKeys attrib ∧
      Spelled [plain "not", plain "regex"] (ascii "yes") attrib
  ret : tag = plain "RETURN" → InFront [plain "value"] attrib
  define : tag = plain "DEFINE" → NameBehind attrib ∧
    (children.isNil = false → plain "value" ∉ attrib.keys ∧ children.Definable)
  permission : tag = plain "PERMISSION" → Spelled grantKeys (ascii "YES") attrib
  user : tag = plain "USER" → InFront [plain "name", plain "password"] attrib ∧ Spelled grantKeys (ascii "YES") attrib

/-- Every element of one of these names is kept; one in a namespace stands behind those without. -/
def Forest.Clean (names : List Str) : Forest → Prop
  | .nil => True
  | .comment _ next => next.Clean names
  | .element tag attrib _ children _ next =>
    (tag.name ∈ names →
      (tag.ns = none → Kept tag attrib children ∧ (tag = plain "CONDITION" → children.Clean names)) ∧
        (tag.ns ≠ none → next.NoOwn names)) ∧
      next.Clean names

def Forest.decDefinable : (f : Forest) → Decidable f.Definable
  | .nil => .isTrue trivial
  | .comment _ next => next.decDefinable
  | .element tag attrib _ children _ next =>
    let _ := children.decDefinable
    let _ := next.decDefinable
    inferInstanceAs (Decidable ((tag = plain "DEFINE" → children.isNil = false →
      plain "value" ∉ attrib.keys ∧ children.Definable) ∧ next.Definable))

instance (f : Forest) : Decidable f.Definable := f.decDefinable

def decMem (name : Str) (names : List Str) : Decidable (name ∈ names) := decidable_of_iff (∃ n ∈ names, n = name) (by simp)

def Forest.decNoOwn (names : List Str) : (f : Forest) → Decidable (f.NoOwn names)
  | .nil => .isTrue trivial
  | .comment _ next => next.decNoOwn names
  | .element tag _ _ _ _ next =>
    let _ := next.decNoOwn names
    let _ := decMem tag.name names
    inferInstanceAs (Decidable ((tag.ns = none → tag.name ∉ names) ∧ next.NoOwn names))

instance (names : List Str) (f : Forest) : Decidable (f.NoOwn names) := f.decNoOwn names

instance (tag : QName) (attrib : Attrib) (children : Forest) : Decidable (Kept tag attrib children) :=
  decidable_of_iff
    ((tag = plain "CONDITION" → InFront conditionKeys attrib ∧
        Spelled [plain "not", plain "regex"] (ascii "yes") attrib) ∧
      (tag = plain "RETURN" → InFront [plain "value"] attrib) ∧
      (tag = plain "DEFINE" → NameBehind attrib ∧
        (children.isNil = false → plain "value" ∉ attrib.keys ∧ children.Definable)) ∧
      (tag = plain "PERMISSION" → Spelled grantKeys (ascii "YES") attrib) ∧
      (tag = plain "USER" → InFront [plain "name", plain "password"] attrib ∧ Spelled grantKeys (ascii "YES") attrib))
    ⟨fun h => ⟨h.1, h.2.1, h.2.2.1, h.2.2.2.1, h.2.2.2.2⟩, fun h => ⟨h.condition, h.ret, h.define, h.permission, h.user⟩⟩

def Forest.decClean (names : List Str) : (f : Forest) → Decidable (f.Clean names)
  | .nil => .isTrue trivial
  | .comment _ next => next.decClean names
  | .element tag attrib _ children _ next =>
    let _ := children.decClean names
    let _ := next.decClean names
    let _ := decMem tag.name names
    inferInstanceAs (Decidable ((tag.name ∈ names →
      (tag.ns = none → Kept tag attrib children ∧ (tag = plain "CONDITION" → children.Clean names)) ∧
        (tag.ns ≠ none → next.NoOwn names)) ∧ next.Clean names))

instance (names : List Str) (f : Forest) : Decidable (f.Clean names) := f.decClean names

/-! ## What can be read -/

section

variable {attrib : Attrib} {children : Forest}

theorem exists_definition (h : children.isNil = false → plain "value" ∉ attrib.keys)
    (hread : children.isNil = false → ∃ r, children.definitions = .ok r) :
    ∃ definition, Definition.fromLxmlElement attrib children children.definitions = .ok definition := by
  have hvalue : children.isNil = false → plain "value" ∉ (attrib.pop (plain "name")).2.keys := by
    intro hnil
    rw [← Attrib.get_eq_none_iff, Attrib.get_pop, if_neg (by decide), Attrib.get_eq_none_iff]
    exact h hnil
  unfold Definition.fromLxmlElement
  cases children with
  | nil => exact ⟨_, rfl⟩
  | comment tail next =>
    obtain ⟨r, hr⟩ := hread rfl
    dsimp only
    rw [hr]
    exact ⟨_, if_neg (hvalue rfl)⟩
  | element tag attrib text children tail next =>
    obtain ⟨r, hr⟩ := hread rfl
    dsimp only
    rw [hr]
    exact ⟨_, if_neg (hvalue rfl)⟩

theorem Forest.Definable.read (h : children.Definable) : ∃ r, children.definitions = .ok r := by
  induction children with
  | nil => exact ⟨_, rfl⟩
  | comment tail next ih =>
    obtain ⟨r, hr⟩ := ih h
    rw [Forest.definitions, hr]
    exact ⟨_, rfl⟩
  | element tag attrib text children tail next ihChildren ih =>
    obtain ⟨hdefine, hnext⟩ := h
    obtain ⟨r, hr⟩ := ih hnext
    rw [Forest.definitions]
    split_ifs with htag
    · obtain ⟨definition, hread⟩ := exists_definition (fun hnil => (hdefine htag hnil).1)
        fun hnil => ihChildren (hdefine htag hnil).2
      rw [hread, hr]
      exact ⟨_, rfl⟩
    · rw [hr]
      exact ⟨_, rfl⟩

end

section

variable (dict : DictOrder) {tag : QName} {attrib : Attrib} {children : Forest}
  {elements : List SecurityElement × Forest} {e : SecurityElement}

theorem definition_tag (definition : Definition) : (definition.toLxmlElement dict).tag = plain "DEFINE" := by
  cases definition <;> rw [Definition.toLxmlElement]

theorem toLxmlElement_tag (h : SecurityElement.fromLxmlElement tag attrib children elements = .ok e) :
    (e.toLxmlElement dict).tag = tag := by
  unfold SecurityElement.fromLxmlElement at h
  split_ifs at h with huser hcondition hpermission hreturn hdefine
  · cases h
    rw [huser]
    rfl
  · cases h
    rw [hcondition]
    rfl
  · cases h
    rw [hpermission]
    rfl
  · cases h
    rw [hreturn]
    rfl
  · cases hread : Definition.fromLxmlElement attrib children children.definitions with
    | error left =>
      rw [hread] at h
      cases h
    | ok definition =>
      rw [hread] at h
      cases h
      rw [hdefine, SecurityElement.toLxmlElement]
      exact definition_tag dict definition

theorem fromLxmlElement_foreign (h : tag.ns ≠ none) :
    SecurityElement.fromLxmlElement tag attrib children elements = .error (attrib, children) := by
  have hne : ∀ s : String, tag ≠ plain s := by
    rintro s rfl
    exact h rfl
  unfold SecurityElement.fromLxmlElement
  rw [if_neg (hne _), if_neg (hne _), if_neg (hne _), if_neg (hne _), if_neg (hne _)]

end

/-! ## What the server passes over -/

/-- Two lists of nodes in which the server finds the same elements of these names. -/
structure Sees (names : List Str) (R : XmlNode → XmlNode → Prop) : Prop where
  equivalence : Equivalence R
  other : ∀ next, R (.other next) next
  skip : ∀ {name} attrs children next, name ∉ names → R (.element name attrs children next) next
  next : ∀ name attrs children {next next'}, R next next' →
    R (.element name attrs children next) (.element name attrs children next')

def saved (dict : DictOrder) (f : Forest) : Forest := appendElements dict f.elements.1 f.elements.2

/-- What is kept of an element is found again. -/
def Finds (dict : DictOrder) (names : List Str) (R : XmlNode → XmlNode → Prop) : Prop :=
  ∀ tag attrib text children, tag.ns = none → tag.name ∈ names → Kept tag attrib children →
    (tag = plain "CONDITION" → R children.view (saved dict children).view) →
    ∃ e, SecurityElement.fromLxmlElement tag attrib children children.elements = .ok e ∧
      ∀ next next', R next next' → R (.element tag.name attrib.view (textNode text children.view) next)
        (.element tag.name (e.toLxmlElement dict).attrib.view
          (textNode (e.toLxmlElement dict).text (e.toLxmlElement dict).children.view) next')

section

variable {dict : DictOrder} {names : List Str} {R : XmlNode → XmlNode → Prop} {c c' f : Forest}

theorem Sees.text (hR : Sees names R) (text : Str) (next : XmlNode) : R (textNode text next) next := by
  unfold textNode
  split_ifs
  · exact hR.equivalence.refl next
  · exact hR.other next

theorem Sees.append (hR : Sees names R) (h : R c.view c'.view) (elements : List SecurityElement) :
    R (appendElements dict elements c).view (appendElements dict elements c').view := by
  induction elements with
  | nil => exact h
  | cons e elements ih => exact hR.next _ _ _ ih

/-- Elements that were read, without any of these names. -/
theorem Sees.noOwn (hR : Sees names R) (h : f.NoOwn names) (c : Forest) :
    R (appendElements dict f.elements.1 c).view c.view := by
  induction f with
  | nil => exact hR.equivalence.refl _
  | comment tail next ih => exact ih h
  | element tag attrib text children tail next _ ih =>
    obtain ⟨hown, hnext⟩ := h
    rw [Forest.elements]
    split
    · rename_i e hread
      have hname : tag.name ∉ names := by
        by_cases hns : tag.ns = none
        · exact hown hns
        · rw [fromLxmlElement_foreign hns] at hread
          cases hread
      refine hR.equivalence.trans (hR.skip _ _ _ ?_) (ih hnext)
      rw [toLxmlElement_tag dict hread]
      exact hname
    · exact ih hnext

/-- **What is saved of clean children** is the same to the server. -/
theorem Sees.saved (hR : Sees names R) (hfinds : Finds dict names R) (h : f.Clean names) :
    R f.view (Pycontrollib.saved dict f).view := by
  have hequiv := hR.equivalence
  induction f with
  | nil => exact hequiv.refl _
  | comment tail next ih =>
    have hpassed : R (Forest.comment tail next).view next.view := hequiv.trans (hR.other _) (hR.text tail _)
    have hkept : R (Forest.comment tail next.elements.2).view next.elements.2.view :=
      hequiv.trans (hR.other _) (hR.text tail _)
    exact hequiv.trans (hequiv.trans hpassed (ih h)) (hR.append (hequiv.symm hkept) _)
  | element tag attrib text children tail next ihChildren ih =>
    obtain ⟨hclean, hnext⟩ := h
    have hsaved := hequiv.trans (hR.text tail _) (ih hnext)
    by_cases hname : tag.name ∈ names
    · by_cases hns : tag.ns = none
      · obtain ⟨hkept, hbody⟩ := (hclean hname).1 hns
        obtain ⟨e, hread, hsame⟩ := hfinds tag attrib text children hns hname hkept fun htag => ihChildren (hbody htag)
        have htag := toLxmlElement_tag dict hread
        have hfront : (Pycontrollib.saved dict (.element tag attrib text children tail next)) =
            (e.toLxmlElement dict).inFront (Pycontrollib.saved dict next) := by
          rw [Pycontrollib.saved, Forest.elements, hread]
          rfl
        rw [hfront, Element.inFront, Forest.view, Forest.view, htag]
        exact hsame _ _ (hequiv.trans hsaved (hequiv.symm (hR.text [] _)))
      · -- All that is moved behind this element is passed over.
        have hrest := (hclean hname).2 hns
        have hback : Pycontrollib.saved dict (.element tag attrib text children tail next) =
            appendElements dict next.elements.1 (.element tag attrib text children tail next.elements.2) := by
          rw [Pycontrollib.saved, Forest.elements, fromLxmlElement_foreign hns]
        rw [hback]
        have hcustom := hequiv.trans hsaved (hequiv.trans (hR.noOwn hrest _) (hequiv.symm (hR.text tail _)))
        exact hequiv.trans (hR.next _ _ _ hcustom) (hequiv.symm (hR.noOwn hrest _))
    · refine hequiv.trans (hequiv.trans (hR.skip _ _ _ hname) hsaved) ?_
      rw [Pycontrollib.saved, Pycontrollib.saved, Forest.elements]
      split
      · rename_i e hread
        refine hequiv.symm (hequiv.trans (hR.skip _ _ _ ?_) (hR.text [] _))
        rw [toLxmlElement_tag dict hread]
        exact hname
      · rename_i left children' hread
        have hkept : R (Forest.element tag left text children' tail next.elements.2).view next.elements.2.view :=
          hequiv.trans (hR.skip _ _ _ hname) (hR.text tail _)
        exact hR.append (hequiv.symm hkept) _

end

/-! ## The verdict -/

def seen (e : Evaluation) : SecurityToken × Int := (e.st, e.cmd)

/-- The same to the token and to the verdict, whatever they are before. -/
def Alike (n n' : XmlNode) : Prop :=
  ∀ regexMatch domains e e', seen e = seen e' →
    seen (computeSiblings regexMatch domains n e).1 = seen (computeSiblings regexMatch domains n' e').1

/-- Attributes that say the same in an element of this name. -/
structure SameEffect (name : Str) (attrs attrs' : List XmlAttr) : Prop where
  condition : name = ascii "CONDITION" → ∀ regexMatch domains st,
    doCondition regexMatch domains st attrs = doCondition regexMatch domains st attrs'
  ret : name = ascii "RETURN" → ∀ e, doReturn attrs e = doReturn attrs' e
  define : name = ascii "DEFINE" → ∀ e, doDefine attrs e = doDefine attrs' e
  permission : name = ascii "PERMISSION" → ∀ e, doPermission attrs e = doPermission attrs' e

namespace SameEffect

variable {attrs attrs' : List XmlAttr}

theorem refl (name : Str) (attrs : List XmlAttr) : SameEffect name attrs attrs :=
  ⟨fun _ _ _ _ => rfl, fun _ _ => rfl, fun _ _ => rfl, fun _ _ => rfl⟩

theorem ofCondition (h : ∀ regexMatch domains st,
    doCondition regexMatch domains st attrs = doCondition regexMatch domains st attrs') :
    SameEffect (ascii "CONDITION") attrs attrs' where
  condition _ := h
  ret hname := absurd hname (by decide)
  define hname := absurd hname (by decide)
  permission hname := absurd hname (by decide)

theorem ofReturn (h : ∀ e, doReturn attrs e = doReturn attrs' e) : SameEffect (ascii "RETURN") attrs attrs' where
  condition hname := absurd hname (by decide)
  ret _ := h
  define hname := absurd hname (by decide)
  permission hname := absurd hname (by decide)

theorem ofDefine (h : ∀ e, doDefine attrs e = doDefine attrs' e) : SameEffect (ascii "DEFINE") attrs attrs' where
  condition hname := absurd hname (by decide)
  ret hname := absurd hname (by decide)
  define _ := h
  permission hname := absurd hname (by decide)

theorem ofPermission (h : ∀ e, doPermission attrs e = doPermission attrs' e) :
    SameEffect (ascii "PERMISSION") attrs attrs' where
  condition hname := absurd hname (by decide)
  ret hname := absurd hname (by decide)
  define hname := absurd hname (by decide)
  permission _ := h

end SameEffect

section

variable {name : Str} {attrs attrs' : List XmlAttr} {e e' : Evaluation} {children children' next next' : XmlNode}

theorem seen_doSetHeader (attrs : List XmlAttr) (e : Evaluation) : seen (doSetHeader attrs e) = seen e := by
  unfold doSetHeader
  split
  · split <;> rfl
  · rfl

theorem seen_doReturn (h : seen e = seen e') : seen (doReturn attrs e) = seen (doReturn attrs e') := by
  obtain ⟨hst, -⟩ := Prod.mk.inj h
  simp [seen, doReturn, hst]

theorem seen_doDefine (h : seen e = seen e') : seen (doDefine attrs e) = seen (doDefine attrs e') := by
  obtain ⟨hst, hcmd⟩ := Prod.mk.inj h
  simp [seen, doDefine, hst, hcmd]

theorem seen_doPermission (h : seen e = seen e') : seen (doPermission attrs e) = seen (doPermission attrs e') := by
  obtain ⟨hst, hcmd⟩ := Prod.mk.inj h
  simp [seen, doPermission, hst, hcmd]

theorem Alike.element (heffect : SameEffect name attrs attrs')
    (hchildren : name = ascii "CONDITION" → Alike children children') (hnext : Alike next next') :
    Alike (.element name attrs children next) (.element name attrs' children' next') := by
  intro regexMatch domains e e' h
  rw [computeSiblings, computeSiblings]
  by_cases hcondition : name = ascii "CONDITION"
  · rw [if_pos hcondition, if_pos hcondition, heffect.condition hcondition, (Prod.mk.inj h).1]
    split_ifs
    · exact hnext _ _ _ _ (hchildren hcondition _ _ _ _ h)
    · exact hnext _ _ _ _ h
  rw [if_neg hcondition, if_neg hcondition]
  by_cases hreturn : name = ascii "RETURN"
  · rw [if_pos hreturn, if_pos hreturn, heffect.ret hreturn]
    exact seen_doReturn h
  rw [if_neg hreturn, if_neg hreturn]
  by_cases hdefine : name = ascii "DEFINE"
  · rw [if_pos hdefine, if_pos hdefine, heffect.define hdefine]
    exact hnext _ _ _ _ (seen_doDefine h)
  rw [if_neg hdefine, if_neg hdefine]
  by_cases hheader : name = ascii "SET_HEADER"
  · rw [if_pos hheader, if_pos hheader]
    exact hnext _ _ _ _ (by rw [seen_doSetHeader, seen_doSetHeader, h])
  rw [if_neg hheader, if_neg hheader]
  by_cases hpermission : name = ascii "PERMISSION"
  · rw [if_pos hpermission, if_pos hpermission, heffect.permission hpermission]
    exact hnext _ _ _ _ (seen_doPermission h)
  · rw [if_neg hpermission, if_neg hpermission]
    exact hnext _ _ _ _ h

theorem Alike.refl (n : XmlNode) : Alike n n := by
  induction n with
  | null => exact fun _ _ _ _ h => h
  | other next ih => exact fun regexMatch domains e e' h => ih regexMatch domains e e' h
  | element name attrs children next ihChildren ih => exact .element (.refl name attrs) (fun _ => ihChildren) ih

def statementNames : List Str := [ascii "CONDITION", ascii "RETURN", ascii "DEFINE", ascii "PERMISSION"]

theorem sees_statements : Sees statementNames Alike where
  equivalence :=
    { refl := .refl
      symm := fun h regexMatch domains e e' he => (h regexMatch domains e' e he.symm).symm
      trans := fun h h' regexMatch domains e e' he =>
        (h regexMatch domains e e' he).trans (h' regexMatch domains e' e' rfl) }
  other next regexMatch domains e e' he := Alike.refl next regexMatch domains e e' he
  skip {name} attrs children next hname regexMatch domains e e' he := by
    simp only [statementNames, List.mem_cons, List.not_mem_nil, or_false, not_or] at hname
    obtain ⟨hcondition, hreturn, hdefine, hpermission⟩ := hname
    rw [computeSiblings, if_neg hcondition, if_neg hreturn, if_neg hdefine, if_neg hpermission]
    split_ifs
    · exact Alike.refl next _ _ _ _ ((seen_doSetHeader attrs e).trans he)
    · exact Alike.refl next _ _ _ _ he
  next name attrs children _ _ hnext := .element (.refl name attrs) (fun _ => .refl children) hnext

end

end MyServer.Pycontrollib
