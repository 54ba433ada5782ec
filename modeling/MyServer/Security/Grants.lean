import MyServer.Security.Validator

/-!
# What a security file grants

The mask that `getPermissionMask` leaves in the token, as a function of the
security file and of the token before the call.
-/

open MyServer.Block

namespace MyServer.Security

variable (env : SecurityEnv) (domains : List SecurityDomain) (st : SecurityToken)

def policyNode : XmlNode := (getParser env st).elim .null firstElement

def policyProgram : Prog Statement := program env.regexMatch domains st (policyNode env st).children

/-- The verdict of the policy language: 1 for ALLOW, 0 for DENY, -1 where no RETURN is reached. -/
def policyVerdict : Int := (runPolicy env.regexMatch domains (policyNode env st) ⟨st, -1, []⟩).cmd

def metStatements : List Statement := (policyProgram env domains st).met Statement.isReturn

def userEntry : Option (List XmlAttr) :=
  (getParser env st).bind fun doc => userElement st.user (findRoot .null doc)

/-- The password comparison of a USER entry. -/
def entryMatches (properties : List XmlAttr) : Bool :=
  comparePassword env ((lastContent (ascii "password") properties).getD []) (cstr st.password)
    (lastContent (ascii "algorithm") properties)

/-- What the USER entry and the last PERMISSION give, before any verdict. A user without an entry
is whatever the token says. -/
def grantOf : Mask :=
  match userEntry env st with
  | some properties =>
    if entryMatches env st properties then
      (lastWrite Statement.granted (metStatements env domains st)).getD (getPermissions properties)
    else 0
  | none =>
    if st.authenticated then
      (lastWrite Statement.granted (metStatements env domains st)).getD st.mask
    else st.mask

/-- The grants of the file to a user whose password comparison succeeded. -/
def grants : List Mask :=
  match userEntry env st with
  | some properties =>
    if entryMatches env st properties then
      getPermissions properties :: (policyProgram env domains st).actions.filterMap Statement.granted
    else []
  | none => []

/-! ## The mask in closed form -/

variable {env domains st}

theorem verdict_cases {l : List Statement} {v : Int} (h : lastWrite Statement.verdict l = some v) :
    v = 0 ∨ v = 1 := by
  obtain ⟨s, -, hs⟩ := List.mem_filterMap.mp (List.mem_of_getLast? h)
  cases s with
  | ret properties =>
    simp only [Statement.verdict, Option.some.injEq] at hs
    split_ifs at hs <;> omega
  | _ => simp [Statement.verdict] at hs

theorem authenticateWith_sameRequest (properties : List XmlAttr) :
    (authenticateWith env properties st).SameRequest st := by
  unfold authenticateWith
  dsimp only
  split <;> exact ⟨rfl, rfl, rfl, rfl⟩

theorem authMethod_sameRequest : (authMethodMask env st).1.SameRequest st := by
  unfold authMethodMask
  split
  · exact ⟨rfl, rfl, rfl, rfl⟩
  split
  · exact ⟨rfl, rfl, rfl, rfl⟩
  · exact authenticateWith_sameRequest _

theorem authMethod_getParser : getParser env (authMethodMask env st).1 = getParser env st := by
  have hwith : ∀ properties, getParser env (authenticateWith env properties st) =
      getParser env st := by
    intro properties
    unfold authenticateWith
    dsimp only
    split <;> rfl
  unfold authMethodMask
  split
  · rfl
  split
  · rfl
  · exact hwith _

theorem grantOf_eq : grantOf env domains st =
    if (authMethodMask env st).1.authenticated then
      (lastWrite Statement.granted (metStatements env domains st)).getD (authMethodMask env st).1.mask
    else (authMethodMask env st).1.mask := by
  unfold grantOf userEntry authMethodMask
  cases getParser env st with
  | none => rfl
  | some doc =>
    simp only [Option.bind_some]
    cases userElement st.user (findRoot .null doc) with
    | none => rfl
    | some properties =>
      simp only [entryMatches, authenticateWith]
      split <;> simp_all

theorem computeXmlNode_of_sameRequest (regexMatch : Str → Str → Option Bool) (node : XmlNode)
    {a : SecurityToken} (h : a.SameRequest st) :
    (computeXmlNode regexMatch domains node ⟨a, -1, []⟩).1 =
      ((program regexMatch domains st node.children).met Statement.isReturn).foldl Statement.exec
        ⟨a, -1, []⟩ :=
  computeSiblings_eq regexMatch domains st _ _ h

theorem topLevelVerdict_eq (doc : XmlNode) {a : SecurityToken} (h : a.SameRequest st)
    (l : List Statement)
    (hl : l = (program env.regexMatch domains st (firstElement doc).children).met
      Statement.isReturn) :
    (topLevelVerdict env domains doc a).1.mask =
      (if lastWrite Statement.verdict l = some 1 then permissionAll
        else if a.authenticated then (lastWrite Statement.granted l).getD a.mask else a.mask) ∧
    (lastWrite Statement.verdict l = some 0 → (topLevelVerdict env domains doc a).2 = 0) := by
  induction doc with
  | null =>
    subst hl
    simp [topLevelVerdict, firstElement, XmlNode.children, program, Prog.met]
  | other next ih => exact ih hl
  | element name properties children next =>
    have hrun := @computeXmlNode_of_sameRequest domains _ env.regexMatch
      (.element name properties children next) _ h
    simp only [firstElement] at hl
    rw [← hl] at hrun
    have hcmd := foldl_exec_cmd l ⟨a, -1, []⟩
    have hmask : (l.foldl Statement.exec ⟨a, -1, []⟩).st.mask =
        if a.authenticated then (lastWrite Statement.granted l).getD a.mask else a.mask := by
      rw [foldl_exec_st]
    unfold topLevelVerdict
    dsimp only
    rw [hrun, hcmd]
    cases hv : lastWrite Statement.verdict l with
    | none => simp [hmask]
    | some v =>
      rcases verdict_cases hv with rfl | rfl
      · simp [hmask]
      · simp

/-! ## What an evaluation leaves alone -/

theorem topLevelVerdict_conf (doc : XmlNode) (a : SecurityToken) :
    (topLevelVerdict env domains doc a).1.vhost = a.vhost ∧
      (topLevelVerdict env domains doc a).1.server = a.server := by
  induction doc generalizing a with
  | null => exact ⟨rfl, rfl⟩
  | other next ih => exact ih a
  | element name properties children next _ ih =>
    unfold topLevelVerdict
    rw [@computeXmlNode_of_sameRequest _ a env.regexMatch _ _ ⟨rfl, rfl, rfl, rfl⟩]
    generalize (program env.regexMatch domains a _).met Statement.isReturn = l
    have hst := foldl_exec_st l ⟨a, -1, []⟩
    dsimp only at hst ⊢
    split_ifs
    · rw [hst]
      exact ⟨rfl, rfl⟩
    · rw [hst]
      exact ⟨rfl, rfl⟩
    · rw [hst]
      exact ⟨rfl, rfl⟩
    · have := ih (l.foldl Statement.exec ⟨a, -1, []⟩).st
      rwa [hst] at this ⊢

theorem authMethod_conf : (authMethodMask env st).1.vhost = st.vhost ∧
    (authMethodMask env st).1.server = st.server := by
  have hwith : ∀ properties, (authenticateWith env properties st).vhost = st.vhost ∧
      (authenticateWith env properties st).server = st.server := by
    intro properties
    unfold authenticateWith
    dsimp only
    split <;> exact ⟨rfl, rfl⟩
  unfold authMethodMask
  split
  · exact ⟨rfl, rfl⟩
  split
  · exact ⟨rfl, rfl⟩
  · exact hwith _

theorem validatorPermissionMask_conf : (validatorPermissionMask env domains st).1.vhost = st.vhost ∧
    (validatorPermissionMask env domains st).1.server = st.server := by
  unfold validatorPermissionMask getPermissionMaskInt getPermissionMaskImpl
  dsimp only
  split
  · exact ⟨rfl, rfl⟩
  split
  · exact authMethod_conf
  · have hauth := @authMethod_conf env st
    have htop := @topLevelVerdict_conf env domains ‹_› (authMethodMask env st).1
    exact ⟨htop.1.trans hauth.1, htop.2.trans hauth.2⟩

/-- The mask that the evaluation leaves in the token: a RETURN of ALLOW gives everything, a RETURN
of DENY takes nothing away. -/
theorem validatorPermissionMask_mask (hdone : st.done = false) :
    (validatorPermissionMask env domains st).1.mask =
      if lastWrite Statement.verdict (metStatements env domains st) = some 1 then permissionAll
      else grantOf env domains st := by
  rw [validatorPermissionMask, hdone, grantOf_eq]
  simp only [Bool.false_eq_true, if_false, getPermissionMaskInt, getPermissionMaskImpl,
    authMethod_getParser]
  unfold metStatements policyProgram policyNode
  cases getParser env st with
  | none => simp [XmlNode.children, program, Prog.met]
  | some doc => exact (topLevelVerdict_eq doc authMethod_sameRequest _ rfl).1

theorem validatorPermissionMask_deny (hdone : st.done = false)
    (h : lastWrite Statement.verdict (metStatements env domains st) = some 0) :
    (validatorPermissionMask env domains st).2 = 0 := by
  rw [validatorPermissionMask, hdone]
  simp only [Bool.false_eq_true, if_false, getPermissionMaskInt, getPermissionMaskImpl,
    authMethod_getParser]
  unfold metStatements policyProgram policyNode at h
  cases hp : getParser env st with
  | none => simp
  | some doc =>
    rw [hp] at h
    simp [(topLevelVerdict_eq doc authMethod_sameRequest _ rfl).2 h]

/-! ## Acting on the policy -/

theorem policyVerdict_eq : policyVerdict env domains st =
    (lastWrite Statement.verdict
      (through Statement.isReturn (policyProgram env domains st).actions)).getD (-1) := by
  rw [policyVerdict, runPolicy, run_eq, foldl_exec_cmd]
  rfl

theorem policyVerdict_cases : policyVerdict env domains st = -1 ∨ policyVerdict env domains st = 0 ∨
    policyVerdict env domains st = 1 := by
  rw [policyVerdict_eq]
  cases h : lastWrite Statement.verdict _ with
  | none => exact Or.inl rfl
  | some v => exact Or.inr (verdict_cases h)

theorem lastWrite_eq_none_iff (l : List Statement) :
    lastWrite Statement.verdict l = none ↔ l.any Statement.isReturn = false := by
  rw [lastWrite, List.getLast?_eq_none_iff, List.filterMap_eq_nil_iff, List.any_eq_false]
  apply forall₂_congr
  intro s _
  cases s <;> simp [Statement.verdict, Statement.isReturn]

theorem no_return_iff : (policyProgram env domains st).actions.any Statement.isReturn = false ↔
    policyVerdict env domains st = -1 := by
  rw [policyVerdict_eq, ← any_through, ← lastWrite_eq_none_iff]
  cases h : lastWrite Statement.verdict _ with
  | none => simp
  | some v => rcases verdict_cases h with rfl | rfl <;> simp

theorem metStatements_of_no_verdict (h : policyVerdict env domains st = -1) :
    metStatements env domains st = (policyProgram env domains st).actions :=
  met_of_none _ (no_return_iff.mpr h)

theorem lastWrite_met_eq_none_iff :
    lastWrite Statement.verdict (metStatements env domains st) = none ↔
      policyVerdict env domains st = -1 := by
  rw [lastWrite_eq_none_iff, metStatements, any_met, no_return_iff]

variable (env domains st)

/-- The mask that is read back, and the one that the validator returns, say what the policy says. -/
structure ActsOnPolicy (mask ret : Mask) : Prop where
  deny : policyVerdict env domains st = 0 → mask = 0 ∧ mask = ret
  allow : policyVerdict env domains st = 1 → mask = permissionAll
  silent : policyVerdict env domains st = -1 →
    ∀ i, mask.getLsbD i = true → ∃ g ∈ grants env domains st, g.getLsbD i = true

/-- When the token says what the policy says. The last RETURN that the interpreter meets agrees with
the first, a denied request was granted nothing before the verdict, and a user without a USER entry
is not taken for authenticated. -/
structure Honoured : Prop where
  verdicts : (lastWrite Statement.verdict (metStatements env domains st)).getD (-1) =
    policyVerdict env domains st
  deny : policyVerdict env domains st = 0 → grantOf env domains st = 0
  unnamed : policyVerdict env domains st = -1 → userEntry env st = none →
    st.authenticated = true →
      (lastWrite Statement.granted (metStatements env domains st)).getD 0 = 0

variable {env domains st}

theorem grantOf_granted (h : policyVerdict env domains st = -1) {properties : List XmlAttr}
    (huser : userEntry env st = some properties) (i : Nat)
    (hi : (grantOf env domains st).getLsbD i = true) :
    ∃ g ∈ grants env domains st, g.getLsbD i = true := by
  simp only [grantOf, huser] at hi
  simp only [grants, huser]
  cases hm : entryMatches env st properties with
  | false => simp [hm] at hi
  | true =>
    simp only [hm, if_true] at hi ⊢
    cases hw : lastWrite Statement.granted (metStatements env domains st) with
    | none => exact ⟨_, List.mem_cons_self, by simpa [hw] using hi⟩
    | some g =>
      refine ⟨g, List.mem_cons_of_mem _ ?_, by simpa [hw] using hi⟩
      rw [← metStatements_of_no_verdict h]
      exact List.mem_of_getLast? hw

theorem eq_zero_of_getLsbD {m : Mask} (h : ∀ i, m.getLsbD i ≠ true) : m = 0 := by
  apply BitVec.eq_of_getLsbD_eq
  intro i hi
  simpa using h i

/-! The top bit belongs to `permissionAll` alone. -/

theorem permissionOf_top (a : XmlAttr) : (permissionOf a).getLsbD 31 = false := by
  unfold permissionOf
  split_ifs <;> decide

theorem getPermissions_top (attrs : List XmlAttr) : (getPermissions attrs).getLsbD 31 = false := by
  have hfold : ∀ m : Mask, m.getLsbD 31 = false →
      (attrs.foldl (fun permissions a => permissions ||| permissionOf a) m).getLsbD 31 = false := by
    induction attrs with
    | nil => exact fun m h => h
    | cons a attrs ih =>
      intro m h
      apply ih
      rw [BitVec.getLsbD_or, h, permissionOf_top, Bool.or_false]
  exact hfold 0 (by decide)

theorem lastWrite_granted_top {l : List Statement} {m : Mask}
    (h : lastWrite Statement.granted l = some m) : m.getLsbD 31 = false := by
  obtain ⟨s, -, hs⟩ := List.mem_filterMap.mp (List.mem_of_getLast? h)
  cases s with
  | permission properties =>
    simp only [Statement.granted, Option.some.injEq] at hs
    rw [← hs]
    exact getPermissions_top properties
  | _ => simp [Statement.granted] at hs

theorem getD_granted_top (l : List Statement) {m : Mask} (h : m.getLsbD 31 = false) :
    ((lastWrite Statement.granted l).getD m).getLsbD 31 = false := by
  cases hw : lastWrite Statement.granted l with
  | none => exact h
  | some g => exact lastWrite_granted_top hw

theorem grantOf_ne_all (hmask : st.mask = 0) : grantOf env domains st ≠ permissionAll := by
  have htop : (grantOf env domains st).getLsbD 31 = false := by
    unfold grantOf
    split
    · split
      · exact getD_granted_top _ (getPermissions_top _)
      · decide
    · rw [hmask]
      split
      · exact getD_granted_top _ (by decide)
      · decide
  intro h
  rw [h] at htop
  exact absurd htop (by decide)

/-- A user without a USER entry is granted what the last PERMISSION says, if the token takes the
user for authenticated. -/
theorem grantOf_unnamed (hmask : st.mask = 0) (h : userEntry env st = none) :
    grantOf env domains st = if st.authenticated then
      (lastWrite Statement.granted (metStatements env domains st)).getD 0 else 0 := by
  simp only [grantOf, h, hmask]

theorem acts_silent_iff (hmask : st.mask = 0) (h : policyVerdict env domains st = -1) :
    (∀ i, (grantOf env domains st).getLsbD i = true →
        ∃ g ∈ grants env domains st, g.getLsbD i = true) ↔
      (userEntry env st = none → st.authenticated = true →
        (lastWrite Statement.granted (metStatements env domains st)).getD 0 = 0) := by
  constructor
  · intro hgranted huser hauth
    have hnone : grants env domains st = [] := by simp [grants, huser]
    have hzero : grantOf env domains st = 0 := by
      apply eq_zero_of_getLsbD
      intro i hi
      simpa [hnone] using hgranted i hi
    simpa [grantOf_unnamed hmask huser, hauth] using hzero
  · intro hunnamed i hi
    cases huser : userEntry env st with
    | some properties => exact grantOf_granted h huser i hi
    | none =>
      rw [grantOf_unnamed hmask huser] at hi
      split at hi
      · rw [hunnamed huser ‹_›] at hi
        simp at hi
      · simp at hi

/-- On a token that no mask was left in, acting on the policy is exactly `Honoured`. -/
theorem actsOnPolicy_iff (hdone : st.done = false) (hmask : st.mask = 0) :
    ActsOnPolicy env domains st (validatorPermissionMask env domains st).1.mask
        (validatorPermissionMask env domains st).2 ↔ Honoured env domains st := by
  have hread := @validatorPermissionMask_mask env domains _ hdone
  have hnone := @lastWrite_met_eq_none_iff env domains st
  rcases @policyVerdict_cases env domains st with h | h | h
  · -- No RETURN: the mask is what was granted.
    have hmet := hnone.mpr h
    rw [hmet, if_neg (by simp)] at hread
    rw [hread]
    constructor
    · intro hacts
      exact ⟨by simp [hmet, h], by simp [h], fun _ => (acts_silent_iff hmask h).mp (hacts.silent h)⟩
    · intro hon
      exact ⟨by simp [h], by simp [h], fun _ => (acts_silent_iff hmask h).mpr (hon.unnamed h)⟩
  all_goals
    obtain ⟨v, hv⟩ : ∃ v, lastWrite Statement.verdict (metStatements env domains st) = some v :=
      Option.ne_none_iff_exists'.mp (fun hn => by rw [hnone.mp hn] at h; omega)
  · -- DENY.
    rcases verdict_cases hv with rfl | rfl
    · have hret := validatorPermissionMask_deny hdone hv
      rw [hv, if_neg (by simp)] at hread
      rw [hread, hret]
      constructor
      · intro hacts
        exact ⟨by simp [hv, h], fun _ => (hacts.deny h).1, by simp [h]⟩
      · intro hon
        exact ⟨fun _ => ⟨hon.deny h, hon.deny h⟩, by simp [h], by simp [h]⟩
    · -- The interpreter went on to a RETURN of ALLOW.
      rw [hv, if_pos rfl] at hread
      constructor
      · intro hacts
        rw [hread] at hacts
        exact absurd (hacts.deny h).1 (by decide)
      · intro hon
        have := hon.verdicts
        rw [hv, h] at this
        simp at this
  · -- ALLOW.
    rcases verdict_cases hv with rfl | rfl
    · rw [hv, if_neg (by simp)] at hread
      constructor
      · intro hacts
        rw [hread] at hacts
        exact absurd (hacts.allow h) (grantOf_ne_all hmask)
      · intro hon
        have := hon.verdicts
        rw [hv, h] at this
        simp at this
    · rw [hv, if_pos rfl] at hread
      rw [hread]
      exact ⟨fun _ => ⟨by simp [hv, h], by simp [h], by simp [h]⟩,
        fun _ => ⟨by simp [h], fun _ => rfl, by simp [h]⟩⟩

end MyServer.Security
