import MyServer.Security.Token
import MyServer.Lib.Block

/-!
# The policy interpreter of `XmlValidator`

A security file is an XML tree whose statements run from the top.
`computeXmlNode` recurses into a CONDITION and drops the value that says
whether a RETURN stood in it.
-/

open MyServer.Block

namespace MyServer.Security

/-! ## The tree -/

structure XmlAttr where
  name : Str
  /-- `attrs->children->content`, where both pointers lead somewhere. -/
  content : Option Str

/-- An `xmlNodePtr`: the node, its first child and its next sibling. -/
inductive XmlNode where
  | null
  /-- Any node that is not an element. -/
  | other (next : XmlNode)
  | element (name : Str) (properties : List XmlAttr) (children next : XmlNode)

/-- `node->children`. -/
def XmlNode.children : XmlNode → XmlNode
  | .element _ _ children _ => children
  | _ => .null

/-- The content left in a pointer that every attribute of this name assigns. -/
def lastContent (name : Str) : List XmlAttr → Option Str
  | [] => none
  | a :: attrs => (lastContent name attrs).or (if a.name = name then a.content else none)

def permissionOf (a : XmlAttr) : Mask :=
  if a.content ≠ some (ascii "YES") then 0
  else if a.name = ascii "READ" then permissionRead
  else if a.name = ascii "WRITE" then permissionWrite
  else if a.name = ascii "EXECUTE" then permissionExecute
  else if a.name = ascii "BROWSE" then permissionBrowse
  else 0

/-- `XmlValidator::getPermissions`; the three `xmlChar**` are `lastContent` of their names. -/
def getPermissions (attrs : List XmlAttr) : Mask :=
  attrs.foldl (fun permissions a => permissions ||| permissionOf a) 0

/-! ## The statements -/

/-- What a run works on: the token, the verdict so far and the `setValue` calls made on the
response header. -/
structure Evaluation where
  st : SecurityToken
  cmd : Int
  headers : List (Str × Str)

def doReturn (properties : List XmlAttr) (e : Evaluation) : Evaluation :=
  { e with cmd := if lastContent (ascii "value") properties = some (ascii "ALLOW") then 1 else 0 }

def doDefine (properties : List XmlAttr) (e : Evaluation) : Evaluation :=
  let name := (lastContent (ascii "name") properties).getD []
  let value := (lastContent (ascii "value") properties).getD []
  { e with st := { e.st with values := Function.update e.st.values name (some value) } }

def doSetHeader (properties : List XmlAttr) (e : Evaluation) : Evaluation :=
  if e.st.responseHeader then
    match lastContent (ascii "name") properties, lastContent (ascii "value") properties with
    | some name, some value => { e with headers := e.headers ++ [(name, value)] }
    | _, _ => e
  else e

def doPermission (properties : List XmlAttr) (e : Evaluation) : Evaluation :=
  let st := { e.st with providedMask := getPermissions properties }
  { e with st := if st.authenticated then { st with mask := st.providedMask } else st }

-- `Regex::compile` with `REG_EXTENDED` and then `exec () == 0`; `none` where it does not compile.
variable (regexMatch : Str → Str → Option Bool)

def doCondition (domains : List SecurityDomain) (st : SecurityToken) (properties : List XmlAttr) :
    Bool :=
  let name := (lastContent (ascii "name") properties).getD []
  let value := (lastContent (ascii "value") properties).getD []
  let isNot := lastContent (ascii "not") properties = some (ascii "yes")
  let regex := lastContent (ascii "regex") properties = some (ascii "yes")
  match getValue domains st name with
  | none => false
  | some storedValue =>
    match (if regex then regexMatch value (cstr storedValue) else some (storedValue = value : Bool)) with
    | none => false
    | some eq => if isNot then !eq else eq

/-- The loop of `computeXmlNode` over the siblings from `cur` on, and the value that it returns. -/
def computeSiblings (domains : List SecurityDomain) : XmlNode → Evaluation → Evaluation × Int
  | .null, e => (e, 0)
  | .other next, e => computeSiblings domains next e
  | .element name properties children next, e =>
    if name = ascii "CONDITION" then
      if doCondition regexMatch domains e.st properties then
        -- The value returned for the body is not looked at.
        computeSiblings domains next (computeSiblings domains children e).1
      else computeSiblings domains next e
    else if name = ascii "RETURN" then (doReturn properties e, 1)
    else if name = ascii "DEFINE" then computeSiblings domains next (doDefine properties e)
    else if name = ascii "SET_HEADER" then computeSiblings domains next (doSetHeader properties e)
    else if name = ascii "PERMISSION" then computeSiblings domains next (doPermission properties e)
    else computeSiblings domains next e

def computeXmlNode (domains : List SecurityDomain) (node : XmlNode) (e : Evaluation) :
    Evaluation × Int :=
  computeSiblings regexMatch domains node.children e

/-! ## What a policy says -/

/-- The statements of the policy language. A CONDITION is a guarded block instead. -/
inductive Statement where
  | ret (properties : List XmlAttr)
  | define (properties : List XmlAttr)
  | setHeader (properties : List XmlAttr)
  | permission (properties : List XmlAttr)

def Statement.exec (e : Evaluation) : Statement → Evaluation
  | .ret properties => doReturn properties e
  | .define properties => doDefine properties e
  | .setHeader properties => doSetHeader properties e
  | .permission properties => doPermission properties e

def Statement.isReturn : Statement → Bool
  | .ret _ => true
  | _ => false

def statementOf (name : Str) (properties : List XmlAttr) : Option Statement :=
  if name = ascii "RETURN" then some (.ret properties)
  else if name = ascii "DEFINE" then some (.define properties)
  else if name = ascii "SET_HEADER" then some (.setHeader properties)
  else if name = ascii "PERMISSION" then some (.permission properties)
  else none

/-- The tree as a program for one request: a block for each CONDITION, guarded by its test. -/
def program (domains : List SecurityDomain) (st : SecurityToken) : XmlNode → Prog Statement
  | .null => .nil
  | .other next => program domains st next
  | .element name properties children next =>
    if name = ascii "CONDITION" then
      .block (doCondition regexMatch domains st properties) (program domains st children)
        (program domains st next)
    else match statementOf name properties with
      | some s => .act s (program domains st next)
      | none => program domains st next

/-- **The policy language.** Statements run in document order, a CONDITION body exactly when its
test holds, and the first RETURN ends the run. -/
def runPolicy (domains : List SecurityDomain) (node : XmlNode) (e : Evaluation) : Evaluation :=
  ((program regexMatch domains e.st node.children).run Statement.isReturn Statement.exec e).1

def leftover (domains : List SecurityDomain) (st : SecurityToken) (node : XmlNode) :
    List Statement :=
  (program regexMatch domains st node.children).leftover Statement.isReturn

/-! ## What single statements write -/

def Statement.verdict : Statement → Option Int
  | .ret properties =>
    some (if lastContent (ascii "value") properties = some (ascii "ALLOW") then 1 else 0)
  | _ => none

def Statement.granted : Statement → Option Mask
  | .permission properties => some (getPermissions properties)
  | _ => none

def Statement.defines (name : Str) : Statement → Option Str
  | .define properties =>
    if (lastContent (ascii "name") properties).getD [] = name then
      some ((lastContent (ascii "value") properties).getD [])
    else none
  | _ => none

@[simp] theorem exec_cmd (e : Evaluation) (s : Statement) :
    (s.exec e).cmd = s.verdict.getD e.cmd := by
  cases s with
  | setHeader properties =>
    simp only [Statement.exec, doSetHeader, Statement.verdict, Option.getD_none]
    split
    · split <;> rfl
    · rfl
  | _ => rfl

theorem exec_st (e : Evaluation) (s : Statement) :
    (s.exec e).st = { e.st with
      values := (s.exec e).st.values
      providedMask := s.granted.getD e.st.providedMask
      mask := if e.st.authenticated then s.granted.getD e.st.mask else e.st.mask } := by
  cases s with
  | ret properties => simp [Statement.exec, doReturn, Statement.granted]
  | define properties => simp [Statement.exec, doDefine, Statement.granted]
  | setHeader properties =>
    simp only [Statement.exec, doSetHeader, Statement.granted, Option.getD_none, ite_self]
    split
    · split <;> rfl
    · rfl
  | permission properties =>
    cases h : e.st.authenticated <;> simp [Statement.exec, doPermission, Statement.granted, h]

theorem exec_values (e : Evaluation) (s : Statement) (name : Str) :
    (s.exec e).st.values name = (s.defines name).or (e.st.values name) := by
  cases s with
  | ret properties => rfl
  | define properties =>
    simp only [Statement.exec, doDefine, Statement.defines, Function.update_apply]
    split_ifs with h1 h2 h2
    · rfl
    · exact absurd h1.symm h2
    · exact absurd h2.symm h1
    · rfl
  | setHeader properties =>
    simp only [Statement.exec, doSetHeader, Statement.defines, Option.none_or]
    split
    · split <;> rfl
    · rfl
  | permission properties =>
    cases h : e.st.authenticated <;> simp [Statement.exec, doPermission, Statement.defines, h]

theorem exec_sameRequest (e : Evaluation) (s : Statement) : (s.exec e).st.SameRequest e.st := by
  rw [exec_st]
  exact ⟨rfl, rfl, rfl, rfl⟩

theorem foldl_exec_st (l : List Statement) (e : Evaluation) :
    (l.foldl Statement.exec e).st = { e.st with
      values := fun name => (lastWrite (Statement.defines name) l).or (e.st.values name)
      providedMask := (lastWrite Statement.granted l).getD e.st.providedMask
      mask := if e.st.authenticated then (lastWrite Statement.granted l).getD e.st.mask
        else e.st.mask } := by
  induction l using List.reverseRecOn with
  | nil => simp
  | append_singleton l s ih =>
    have hvalues : (s.exec (l.foldl Statement.exec e)).st.values = fun name =>
        (lastWrite (Statement.defines name) (l ++ [s])).or (e.st.values name) := by
      funext name
      rw [exec_values, ih, lastWrite_concat, Option.or_assoc]
    rw [List.foldl_concat, exec_st, hvalues, ih, lastWrite_concat]
    cases e.st.authenticated <;> cases s.granted <;> rfl

theorem foldl_exec_cmd (l : List Statement) (e : Evaluation) :
    (l.foldl Statement.exec e).cmd = (lastWrite Statement.verdict l).getD e.cmd :=
  get_foldl Statement.exec Evaluation.cmd Statement.verdict exec_cmd l e

/-! ## The interpreter against the language -/

theorem doCondition_congr {a b : SecurityToken} (h : a.SameRequest b)
    (domains : List SecurityDomain) (properties : List XmlAttr) :
    doCondition regexMatch domains a properties = doCondition regexMatch domains b properties := by
  simp only [doCondition, getValue_congr h]

theorem sameRequest_trans {a b c : SecurityToken} (h : a.SameRequest b) (h' : b.SameRequest c) :
    a.SameRequest c :=
  ⟨h.1.trans h'.1, h.2.1.trans h'.2.1, h.2.2.1.trans h'.2.2.1, h.2.2.2.trans h'.2.2.2⟩

theorem foldl_exec_sameRequest (l : List Statement) (e : Evaluation) :
    (l.foldl Statement.exec e).st.SameRequest e.st := by
  rw [foldl_exec_st]
  exact ⟨rfl, rfl, rfl, rfl⟩

/-- A RETURN ends the loop over the siblings it stands among, and no other. -/
theorem computeSiblings_eq (domains : List SecurityDomain) (st : SecurityToken) (cur : XmlNode)
    (e : Evaluation) (h : e.st.SameRequest st) :
    (computeSiblings regexMatch domains cur e).1 =
      ((program regexMatch domains st cur).met Statement.isReturn).foldl Statement.exec e := by
  induction cur generalizing e with
  | null => rfl
  | other next ih => exact ih e h
  | element name properties children next ihc ihn =>
    have hexec : ∀ s : Statement, (s.exec e).st.SameRequest st := fun s =>
      sameRequest_trans (exec_sameRequest e s) h
    unfold computeSiblings program statementOf
    split_ifs with hcond hguard hret hdef hhead hperm
    · -- The body runs, and then the siblings run whatever the body met.
      have hbody := ihc e h
      rw [hbody, ihn _ (sameRequest_trans (foldl_exec_sameRequest _ e) h)]
      rw [doCondition_congr regexMatch h] at hguard
      simp [Prog.met, hguard]
    · rw [ihn e h]
      rw [doCondition_congr regexMatch h] at hguard
      simp [Prog.met, hguard]
    · simp [Prog.met, Statement.isReturn, Statement.exec]
    · exact ihn _ (hexec (.define properties))
    · exact ihn _ (hexec (.setHeader properties))
    · exact ihn _ (hexec (.permission properties))
    · exact ihn e h

/-- What the interpreter computes is the policy's own run and then the leftover statements. -/
theorem computeXmlNode_eq (domains : List SecurityDomain) (node : XmlNode) (e : Evaluation) :
    (computeXmlNode regexMatch domains node e).1 =
      (leftover regexMatch domains e.st node).foldl Statement.exec
        (runPolicy regexMatch domains node e) := by
  rw [computeXmlNode, computeSiblings_eq regexMatch domains e.st _ e ⟨rfl, rfl, rfl, rfl⟩, foldl_met]
  rfl

/-- The verdict and the token of the interpreter are those of the policy's own run. -/
def StopsAtFirstReturn (domains : List SecurityDomain) (node : XmlNode) (e : Evaluation) : Prop :=
  (computeXmlNode regexMatch domains node e).1.cmd = (runPolicy regexMatch domains node e).cmd ∧
  (computeXmlNode regexMatch domains node e).1.st = (runPolicy regexMatch domains node e).st

/-- The last RETURN, the last PERMISSION and the last DEFINE of each name in the list say what
holds already. -/
structure Repeats (stmts : List Statement) (e : Evaluation) : Prop where
  verdict : ∀ v ∈ lastWrite Statement.verdict stmts, v = e.cmd
  permission : ∀ m ∈ lastWrite Statement.granted stmts,
    m = e.st.providedMask ∧ (e.st.authenticated → m = e.st.mask)
  define : ∀ name, ∀ v ∈ lastWrite (Statement.defines name) stmts, e.st.values name = some v

theorem getD_eq_iff {α : Type} (o : Option α) (a : α) : o.getD a = a ↔ ∀ b ∈ o, b = a := by
  cases o <;> simp

theorem or_eq_iff {α : Type} (o p : Option α) : o.or p = p ↔ ∀ b ∈ o, p = some b := by
  cases o <;> simp [eq_comm]

theorem foldl_exec_cmd_iff (l : List Statement) (e : Evaluation) :
    (l.foldl Statement.exec e).cmd = e.cmd ↔ ∀ v ∈ lastWrite Statement.verdict l, v = e.cmd := by
  rw [foldl_exec_cmd, getD_eq_iff]

theorem foldl_exec_st_iff (l : List Statement) (e : Evaluation) :
    (l.foldl Statement.exec e).st = e.st ↔
      (∀ m ∈ lastWrite Statement.granted l,
        m = e.st.providedMask ∧ (e.st.authenticated → m = e.st.mask)) ∧
      (∀ name, ∀ v ∈ lastWrite (Statement.defines name) l, e.st.values name = some v) := by
  have hfields : ∀ (st : SecurityToken) (v : Str → Option Str) (p m : Mask),
      { st with values := v, providedMask := p, mask := m } = st ↔
        v = st.values ∧ p = st.providedMask ∧ m = st.mask := by
    intro st v p m
    cases st
    simp
    tauto
  rw [foldl_exec_st, hfields, funext_iff]
  simp only [or_eq_iff, getD_eq_iff]
  cases hauth : e.st.authenticated with
  | false =>
    simp only [Bool.false_eq_true, if_false, false_imp_iff, and_true]
    exact and_comm
  | true =>
    simp only [if_true, getD_eq_iff, true_imp_iff]
    constructor
    · rintro ⟨hv, hp, hm⟩
      exact ⟨fun m h => ⟨hp m h, hm m h⟩, hv⟩
    · rintro ⟨hpm, hv⟩
      exact ⟨hv, fun m h => (hpm m h).1, fun m h => (hpm m h).2⟩

def attr (name content : String) : XmlAttr := ⟨ascii name, some (ascii content)⟩

/-- `<CONDITION name="auth.user" value="bob"> <RETURN value="DENY"/> </CONDITION>`, then
`<RETURN value="ALLOW"/>`. -/
def denyBob : XmlNode :=
  .element (ascii "SECURITY") []
    (.element (ascii "CONDITION") [attr "name" "auth.user", attr "value" "bob"]
      (.element (ascii "RETURN") [attr "value" "DENY"] .null .null)
      (.element (ascii "RETURN") [attr "value" "ALLOW"] .null .null))
    .null

end MyServer.Security
