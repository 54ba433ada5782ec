import MyServer.Pycontrollib.SavedPolicy

/-!
# What the server makes of a saved security file

The statements are followed through `computeXmlNode`, the users through the authentication method.
-/

open MyServer.Security

namespace MyServer.Pycontrollib

section

variable {dict : DictOrder} {a : Attrib} {tag : QName} {children : Forest} {elements : List SecurityElement × Forest}
  {keys : List QName} {g : QName → Str → Str} {n : Str}

/-! ## The statements -/

theorem content_rewritten (hkeys : Plain keys) (hn : ⟨none, n⟩ ∈ keys) (hfront : InFront keys a)
    (hg : g ⟨none, n⟩ = id) : lastContent n (rewritten keys g a).view = lastContent n a.view := by
  have hfronted := @fronted_rewritten a g keys n hkeys hn
  rw [hg] at hfronted
  exact hfronted.content_eq hfront hn

theorem doCondition_saved (hfront : InFront conditionKeys a)
    (hspelled : Spelled [plain "not", plain "regex"] (ascii "yes") a) (regexMatch : Str → Str → Option Bool)
    (domains : List SecurityDomain) (st : SecurityToken) :
    doCondition regexMatch domains st a.view = doCondition regexMatch domains st
      ((SecurityElement.readCondition a elements).toLxmlElement dict).attrib.view := by
  rw [condition_attrib]
  have hplain : Plain conditionKeys := by decide
  have hname : lastContent (ascii "name") (rewritten conditionKeys _ a).view = lastContent (ascii "name") a.view :=
    @content_rewritten a _ (spell [plain "not", plain "regex"] (ascii "yes") (ascii "no")) _ hplain (by decide) hfront
      (funext fun v => if_neg (by decide))
  have hvalue : lastContent (ascii "value") (rewritten conditionKeys _ a).view = lastContent (ascii "value") a.view :=
    @content_rewritten a _ (spell [plain "not", plain "regex"] (ascii "yes") (ascii "no")) _ hplain (by decide) hfront
      (funext fun v => if_neg (by decide))
  have hflag : ∀ n, (⟨none, n⟩ : QName) ∈ [plain "not", plain "regex"] → (⟨none, n⟩ : QName) ∈ conditionKeys →
      (lastContent n (rewritten conditionKeys (spell [plain "not", plain "regex"] (ascii "yes") (ascii "no")) a).view =
        some (ascii "yes") ↔ lastContent n a.view = some (ascii "yes")) := by
    intro n hmem hkey
    refine (fronted_rewritten hplain hkey).content_iff hfront hkey (by decide) fun v hv => ?_
    exact hspelled.spell_eq_iff hmem (by decide) (by decide) hv
  have hnot := propext (hflag (ascii "not") (by decide) (by decide))
  have hregex := propext (hflag (ascii "regex") (by decide) (by decide))
  simp only [doCondition, hname, hvalue, hnot, hregex]

theorem doReturn_saved (hfront : InFront [plain "value"] a) (e : Evaluation) :
    doReturn a.view e = doReturn ((SecurityElement.readReturn a children).toLxmlElement dict).attrib.view e := by
  have hvalue : lastContent (ascii "value") (rewritten [plain "value"] (fun _ v => v) a).view =
      lastContent (ascii "value") a.view := content_rewritten (by decide) (by decide) hfront rfl
  rw [return_attrib, doReturn, doReturn, hvalue]

theorem permissions_saved (hspelled : Spelled grantKeys (ascii "YES") a) (hkeys : ∀ k ∈ flagKeys, k ∈ keys) :
    getPermissions (rewritten keys (spell flagKeys (ascii "YES") (ascii "NO")) a).view = getPermissions a.view := by
  have hsaves : Saves (spell flagKeys (ascii "YES") (ascii "NO")) a (rewritten keys _ a) :=
    saves_rewritten fun k hk v => if_neg fun hflag => hk (hkeys k hflag)
  exact hsaves.permissions fun k w hw => hspelled.permissionOf_eq hw

theorem doPermission_saved (hspelled : Spelled grantKeys (ascii "YES") a) (e : Evaluation) :
    doPermission a.view e = doPermission ((SecurityElement.readPermission a children).toLxmlElement dict).attrib.view e := by
  rw [permission_attrib, doPermission, doPermission, permissions_saved hspelled fun _ hk => hk]

theorem doDefine_saved {definitions : Except Forest (List Definition × Forest)} {definition : Definition}
    (h : Definition.fromLxmlElement a children definitions = .ok definition) (hname : NameBehind a) (e : Evaluation) :
    doDefine a.view e = doDefine (definition.toLxmlElement dict).attrib.view e := by
  have hcontent := fun n hn => @definition_content dict a children definitions definition h hname n hn
  rw [doDefine, doDefine, hcontent (ascii "name") (Or.inl rfl), hcontent (ascii "value") (Or.inr rfl)]

theorem plain_of_name {s : String} (hns : tag.ns = none) (hname : tag.name = ascii s) : tag = plain s := by
  cases tag with
  | mk ns name =>
    cases hns
    cases hname
    rfl

theorem kept_definition (hkept : Kept (plain "DEFINE") a children) :
    ∃ definition, Definition.fromLxmlElement a children children.definitions = .ok definition :=
  exists_definition (fun hnil => ((hkept.define rfl).2 hnil).1) fun hnil => ((hkept.define rfl).2 hnil).2.read

theorem finds_statements (dict : DictOrder) : Finds dict statementNames Alike := by
  intro tag a text children hns hname hkept hbody
  have htext := fun text node => sees_statements.text text node
  have hequiv := sees_statements.equivalence
  simp only [statementNames, List.mem_cons, List.not_mem_nil, or_false] at hname
  rcases hname with hname | hname | hname | hname
  · obtain rfl := plain_of_name hns hname
    obtain ⟨hfront, hspelled⟩ := hkept.condition rfl
    refine ⟨SecurityElement.readCondition a children.elements, rfl, fun next next' hnext => ?_⟩
    refine Alike.element (.ofCondition (doCondition_saved hfront hspelled)) (fun _ => ?_) hnext
    exact hequiv.trans (hequiv.trans (htext text _) (hbody rfl)) (hequiv.symm (htext _ _))
  · obtain rfl := plain_of_name hns hname
    refine ⟨SecurityElement.readReturn a children, rfl, fun next next' hnext => ?_⟩
    exact Alike.element (.ofReturn (doReturn_saved (hkept.ret rfl))) (fun h => absurd h (by decide)) hnext
  · obtain rfl := plain_of_name hns hname
    obtain ⟨definition, hread⟩ := kept_definition hkept
    refine ⟨.definition definition, ?_, fun next next' hnext => ?_⟩
    · unfold SecurityElement.fromLxmlElement
      rw [hread]
      rfl
    · rw [SecurityElement.toLxmlElement]
      exact Alike.element (.ofDefine (doDefine_saved hread (hkept.define rfl).1)) (fun h => absurd h (by decide)) hnext
  · obtain rfl := plain_of_name hns hname
    refine ⟨SecurityElement.readPermission a children, rfl, fun next next' hnext => ?_⟩
    exact Alike.element (.ofPermission (doPermission_saved (hkept.permission rfl))) (fun h => absurd h (by decide)) hnext

/-! ## The users -/

/-- The same user decides, with the same effect. -/
def SameUsers (n n' : XmlNode) : Prop :=
  ∀ env st, (userElement st.user n).map (fun properties => authenticateWith env properties st) =
    (userElement st.user n').map fun properties => authenticateWith env properties st

theorem sees_users : Sees [ascii "USER"] SameUsers where
  equivalence :=
    { refl := fun _ _ _ => rfl
      symm := fun h env st => (h env st).symm
      trans := fun h h' env st => (h env st).trans (h' env st) }
  other _ _ _ := rfl
  skip attrs children next hname env st := by
    rw [userElement, if_pos (List.mem_singleton.not.mp hname)]
  next name attrs children _ _ hnext env st := by
    rw [userElement, userElement]
    split_ifs
    · exact hnext env st
    · rfl
    · exact hnext env st

theorem finds_users (dict : DictOrder) : Finds dict [ascii "USER"] SameUsers := by
  intro tag a text children hns hname hkept _
  obtain rfl := plain_of_name hns (List.mem_singleton.mp hname)
  obtain ⟨hfront, hspelled⟩ := hkept.user rfl
  refine ⟨SecurityElement.readUser a children, rfl, fun next next' hnext env st => ?_⟩
  have hcontent : ∀ n, (⟨none, n⟩ : QName) ∈ [plain "name", plain "password"] → lastContent n
      (rewritten userKeys (spell flagKeys (ascii "YES") (ascii "NO")) a).view = lastContent n a.view := by
    intro n hn
    have hkey : (⟨none, n⟩ : QName) ∈ userKeys := List.mem_append_left flagKeys hn
    have hapart : ∀ k ∈ [plain "name", plain "password"], k ∉ flagKeys := by decide
    have hid : spell flagKeys (ascii "YES") (ascii "NO") ⟨none, n⟩ = id := funext fun v => if_neg (hapart _ hn)
    have hfronted := @fronted_rewritten a (spell flagKeys (ascii "YES") (ascii "NO")) userKeys n (by decide) hkey
    rw [hid] at hfronted
    exact hfronted.content_eq hfront hn
  have hname := hcontent (ascii "name") (by decide)
  have hpassword := hcontent (ascii "password") (by decide)
  have halgorithm : lastContent (ascii "algorithm") (rewritten userKeys (spell flagKeys (ascii "YES") (ascii "NO")) a).view =
      lastContent (ascii "algorithm") a.view := content_congr (entries_rewritten (by decide) (by decide))
  have hpermissions := @permissions_saved a userKeys hspelled fun k hk =>
    List.mem_cons_of_mem _ (List.mem_cons_of_mem _ hk)
  rw [user_attrib, userElement, userElement, hname, hpassword]
  split_ifs
  · exact hnext env st
  · simp only [Option.map_some, authenticateWith, hpassword, halgorithm, hpermissions]
  · exact hnext env st

end

/-! ## The document -/

/-- The validator computes the same from both, for every token: the verdict, the mask and the token itself. -/
def SamePolicy (doc doc' : XmlNode) : Prop :=
  ∀ (regexMatch : Str → Str → Option Bool) (cryptCheck : Str → Str → Str → Bool) (domains : List SecurityDomain)
    (st : SecurityToken),
    getPermissionMaskInt ⟨regexMatch, cryptCheck, fun _ _ _ => some doc⟩ domains st =
      getPermissionMaskInt ⟨regexMatch, cryptCheck, fun _ _ _ => some doc'⟩ domains st

section

variable {root root' : Element} {dict : DictOrder} {list : SecurityList}

theorem userElement_firstElement (user : Str) (n : XmlNode) : userElement user (firstElement n) = userElement user n := by
  induction n with
  | null => rfl
  | other next ih => exact ih
  | element name properties children next _ _ => rfl

theorem userElement_textNode (user text : Str) (n : XmlNode) : userElement user (textNode text n) = userElement user n := by
  unfold textNode
  split_ifs
  · rfl
  · rfl

theorem view_eq (root : Element) :
    root.view = .element root.tag.name root.attrib.view (textNode root.text root.children.view) .null := rfl

theorem userElement_view (user : Str) (root : Element) :
    userElement user (findRoot .null root.view) = userElement user root.children.view := by
  have hroot : findRoot .null root.view = firstElement (textNode root.text root.children.view) := by
    rw [view_eq, findRoot]
    cases firstElement (textNode root.text root.children.view) with
    | null => rfl
    | other next => rfl
    | element name properties children next => rfl
  rw [hroot, userElement_firstElement, userElement_textNode]

theorem topLevelVerdict_view (env : SecurityEnv) (domains : List SecurityDomain) (root : Element) (st : SecurityToken)
    (e : SecurityToken × Int)
    (h : seen (computeSiblings env.regexMatch domains root.children.view ⟨st, -1, []⟩).1 = e) :
    topLevelVerdict env domains root.view st =
      if e.2 = -1 then (e.1, 1) else if e.2 = 0 then (e.1, 0)
      else if e.2 = 1 then ({ e.1 with mask := permissionAll }, 1) else (e.1, 0) := by
  subst h
  have htext : seen (computeSiblings env.regexMatch domains (textNode root.text root.children.view) ⟨st, -1, []⟩).1 =
      seen (computeSiblings env.regexMatch domains root.children.view ⟨st, -1, []⟩).1 :=
    sees_statements.text root.text root.children.view env.regexMatch domains _ _ rfl
  rw [← htext, view_eq, topLevelVerdict]
  rfl

/-- **Two documents with the same statements and the same users.** -/
theorem same_policy (hstatements : Alike root.children.view root'.children.view)
    (husers : SameUsers root.children.view root'.children.view) : SamePolicy root.view root'.view := by
  intro regexMatch cryptCheck domains st
  have hauth : authMethodMask ⟨regexMatch, cryptCheck, fun _ _ _ => some root.view⟩ st =
      authMethodMask ⟨regexMatch, cryptCheck, fun _ _ _ => some root'.view⟩ st := by
    have hmask : ∀ root : Element, authMethodMask ⟨regexMatch, cryptCheck, fun _ _ _ => some root.view⟩ st =
        ((userElement st.user root.children.view).map fun properties =>
          authenticateWith ⟨regexMatch, cryptCheck, fun _ _ _ => none⟩ properties st).elim (st, 0) fun st =>
          (st, st.mask) := by
      intro root
      unfold authMethodMask getParser
      dsimp only
      rw [userElement_view]
      cases userElement st.user root.children.view with
      | none => rfl
      | some properties => rfl
    rw [hmask, hmask, husers]
  have himpl : ∀ st, getPermissionMaskImpl ⟨regexMatch, cryptCheck, fun _ _ _ => some root.view⟩ domains st =
      getPermissionMaskImpl ⟨regexMatch, cryptCheck, fun _ _ _ => some root'.view⟩ domains st := by
    intro st
    have hseen := hstatements regexMatch domains ⟨st, -1, []⟩ ⟨st, -1, []⟩ rfl
    exact (topLevelVerdict_view _ domains root st _ hseen).trans (topLevelVerdict_view _ domains root' st _ rfl).symm
  unfold getPermissionMaskInt
  dsimp only
  rw [hauth, himpl]

end

/-! ## Files -/

/-- bob is allowed, and others are not. -/
def allowBob : Element where
  tag := plain "SECURITY"
  attrib := .empty
  text := ascii "\n"
  children := .element (plain "CONDITION")
    (((Attrib.empty.set (plain "not") (ascii "no")).set (plain "name") (ascii "auth.user")).set (plain "value") (ascii "bob"))
    [] (.comment (ascii " ") (.element (plain "RETURN") (Attrib.empty.set (plain "value") (ascii "ALLOW")) [] .nil [] .nil))
    [] (.element (plain "RETURN") (Attrib.empty.set (plain "value") (ascii "DENY")) [] .nil [] .nil)

/-- `<SECURITY><PERMISSION READ="Yes"/></SECURITY>`. -/
def readYes : Element where
  tag := plain "SECURITY"
  attrib := .empty
  text := []
  children := .element (plain "PERMISSION") (Attrib.empty.set (plain "READ") (ascii "Yes")) [] .nil [] .nil

end MyServer.Pycontrollib
