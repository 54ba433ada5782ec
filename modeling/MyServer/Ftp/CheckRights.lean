import MyServer.Files.FileSystem
import MyServer.Security.Grants

/-!
# `Ftp::checkRights`

The token is a member of the `Ftp` object, so all checks of one object share
it.
-/

open MyServer.Files MyServer.Security MyServer.Block

namespace MyServer.Ftp

/-- The directory whose security file judges a path, and the file name. -/
def splitTarget (fs : FileSystem) (sPath : Str) : Except FileError (Str × Str) :=
  (isDirectory fs sPath).map fun isDir => if isDir then (sPath, []) else splitPath sPath

/-- `anonymous` stands for the user Guest with an empty password. -/
def resolveUser (suser sPass : Str) : Str × Str :=
  if caseEq suser (ascii "anonymous") then (ascii "Guest", []) else (suser, sPass)

/-- The token as the evaluation finds it. No server and no virtual host is ever set in it. -/
def checkToken (systemRoot suser sPass : Str) (target : Str × Str) (st : SecurityToken) :
    SecurityToken :=
  { st with
    user := (resolveUser suser sPass).1
    password := (resolveUser suser sPass).2
    directory := some target.1
    sysdirectory := some systemRoot
    resource := some target.2 }

def evaluateCheck (env : SecurityEnv) (tok : SecurityToken) : SecurityToken × Mask :=
  securityManagerMask env [.auth]
    ((tok.getData (ascii "sec.validator") confRings).getD (ascii "xml")) tok

/-- `Ftp::checkRights`: the result and the token after the call. -/
def checkRights (env : SecurityEnv) (fs : FileSystem) (systemRoot suser sPass sPath : Str)
    (mask : Mask) (st : SecurityToken) : Except FileError (Mask × SecurityToken) :=
  if sPath = [] then .ok (0, st)
  else do
    let target ← splitTarget fs sPath
    let tok := (evaluateCheck env (checkToken systemRoot suser sPass target st)).1
    .ok (tok.mask &&& mask, tok)

theorem securityManagerMask_eq (env : SecurityEnv) (domains : List SecurityDomain) (name : Str)
    (st : SecurityToken) :
    securityManagerMask env domains name st = validatorPermissionMask env domains st := by
  by_cases h : name = ascii "xml" <;> simp [securityManagerMask, registered, h]

theorem checkRights_eq {env : SecurityEnv} {fs : FileSystem} {sPath : Str} {target : Str × Str}
    (hpath : sPath ≠ []) (htarget : splitTarget fs sPath = .ok target)
    (systemRoot suser sPass : Str) (mask : Mask) (st : SecurityToken) :
    checkRights env fs systemRoot suser sPass sPath mask st =
      .ok ((evaluateCheck env (checkToken systemRoot suser sPass target st)).1.mask &&& mask,
        (evaluateCheck env (checkToken systemRoot suser sPass target st)).1) := by
  rw [checkRights, if_neg hpath, htarget]
  rfl

theorem evaluateCheck_done (env : SecurityEnv) {tok : SecurityToken} (h : tok.done = true) :
    evaluateCheck env tok = (tok, tok.mask) := by
  rw [evaluateCheck, securityManagerMask_eq, validatorPermissionMask, if_pos h]

theorem evaluateCheck_sets_done (env : SecurityEnv) (tok : SecurityToken) :
    (evaluateCheck env tok).1.done = true := by
  rw [evaluateCheck, securityManagerMask_eq, validatorPermissionMask]
  split
  · assumption
  · rfl

theorem evaluateCheck_conf (env : SecurityEnv) (tok : SecurityToken) :
    (evaluateCheck env tok).1.vhost = tok.vhost ∧ (evaluateCheck env tok).1.server = tok.server := by
  rw [evaluateCheck, securityManagerMask_eq]
  exact validatorPermissionMask_conf

/-! ## One token, many checks -/

/-- One call of `checkRights`, with the file system and the security files of its moment. -/
structure Check where
  env : SecurityEnv
  fs : FileSystem
  suser : Str
  sPass : Str
  sPath : Str
  mask : Mask

/-- What the evaluation of a check works on, where there is one. -/
def Check.target (c : Check) : Option (Str × Str) :=
  if c.sPath = [] then none else (splitTarget c.fs c.sPath).toOption

def Check.run (systemRoot : Str) (c : Check) (st : SecurityToken) :
    Except FileError (Mask × SecurityToken) :=
  checkRights c.env c.fs systemRoot c.suser c.sPass c.sPath c.mask st

/-- The token after a check; a check that throws has not reached the token. -/
def Check.next (systemRoot : Str) (c : Check) (st : SecurityToken) : SecurityToken :=
  match c.run systemRoot st with
  | .ok (_, st') => st'
  | .error _ => st

def Check.result (systemRoot : Str) (c : Check) (st : SecurityToken) : Except FileError Mask :=
  (c.run systemRoot st).map Prod.fst

def results (systemRoot : Str) : List Check → SecurityToken → List (Except FileError Mask)
  | [], _ => []
  | c :: cs, st => c.result systemRoot st :: results systemRoot cs (c.next systemRoot st)

/-- What the security file of the target grants to the user of the check: everything where the
policy returns ALLOW, and otherwise what the entries and the statements grant. -/
def Check.granted (systemRoot : Str) (g : Indeterminate) (c : Check) (target : Str × Str) : Mask :=
  let tok := checkToken systemRoot c.suser c.sPass target (SecurityToken.new g)
  if lastWrite Statement.verdict (metStatements c.env [.auth] tok) = some 1 then permissionAll
  else grantOf c.env [.auth] tok

def evaluated (cs : List Check) : List (Check × (Str × Str)) :=
  cs.filterMap fun c => c.target.map fun target => (c, target)

/-- No check asks for a bit on which its own grant differs from the grant of the check that was
evaluated first. -/
def AgreeWithFirst (systemRoot : Str) (g : Indeterminate) (cs : List Check) : Prop :=
  ∀ first ∈ (evaluated cs).head?, ∀ c ∈ evaluated cs,
    c.1.granted systemRoot g c.2 &&& c.1.mask =
      first.1.granted systemRoot g first.2 &&& c.1.mask

variable {systemRoot : Str} {g : Indeterminate}

theorem run_of_no_target {c : Check} (h : c.target = none) (st : SecurityToken) :
    c.next systemRoot st = st ∧
      c.result systemRoot st = c.result systemRoot (SecurityToken.new g) := by
  unfold Check.target at h
  unfold Check.next Check.result Check.run checkRights
  split_ifs at h ⊢ with hpath
  · exact ⟨rfl, rfl⟩
  · cases ht : splitTarget c.fs c.sPath with
    | error e => exact ⟨rfl, rfl⟩
    | ok target => simp [ht, Except.toOption] at h

theorem run_of_target {c : Check} {target : Str × Str} (h : c.target = some target)
    (st : SecurityToken) :
    c.run systemRoot st =
      .ok ((evaluateCheck c.env (checkToken systemRoot c.suser c.sPass target st)).1.mask &&& c.mask,
        (evaluateCheck c.env (checkToken systemRoot c.suser c.sPass target st)).1) := by
  unfold Check.target at h
  split_ifs at h with hpath
  cases ht : splitTarget c.fs c.sPath with
  | error e => simp [ht, Except.toOption] at h
  | ok target' =>
    obtain rfl : target' = target := by simpa [ht, Except.toOption] using h
    exact checkRights_eq hpath ht systemRoot c.suser c.sPass c.mask st

theorem run_fresh {c : Check} {target : Str × Str} (h : c.target = some target) :
    (c.next systemRoot (SecurityToken.new g)).mask = c.granted systemRoot g target ∧
    (c.next systemRoot (SecurityToken.new g)).done = true ∧
    c.result systemRoot (SecurityToken.new g) = .ok (c.granted systemRoot g target &&& c.mask) := by
  have hmask : (evaluateCheck c.env
      (checkToken systemRoot c.suser c.sPass target (SecurityToken.new g))).1.mask =
        c.granted systemRoot g target := by
    rw [evaluateCheck, securityManagerMask_eq, validatorPermissionMask_mask rfl]
    rfl
  have hrun := @run_of_target systemRoot _ _ h (SecurityToken.new g)
  refine ⟨?_, ?_, ?_⟩
  · rw [Check.next, hrun]
    exact hmask
  · rw [Check.next, hrun]
    exact evaluateCheck_sets_done _ _
  · rw [Check.result, hrun, hmask]
    rfl

theorem run_done {c : Check} {target : Str × Str} (h : c.target = some target) {st : SecurityToken}
    (hdone : st.done = true) :
    (c.next systemRoot st).mask = st.mask ∧ (c.next systemRoot st).done = true ∧
      c.result systemRoot st = .ok (st.mask &&& c.mask) := by
  have hrun := @run_of_target systemRoot _ _ h st
  rw [@evaluateCheck_done c.env (checkToken systemRoot c.suser c.sPass target st) hdone] at hrun
  refine ⟨?_, ?_, ?_⟩
  · rw [Check.next, hrun]
    rfl
  · rw [Check.next, hrun]
    exact hdone
  · rw [Check.result, hrun]
    rfl

theorem evaluated_cons_of_none {c : Check} (h : c.target = none) (cs : List Check) :
    evaluated (c :: cs) = evaluated cs := by
  unfold evaluated
  rw [List.filterMap_cons, h]
  rfl

theorem evaluated_cons_of_some {c : Check} {target : Str × Str} (h : c.target = some target)
    (cs : List Check) : evaluated (c :: cs) = (c, target) :: evaluated cs := by
  unfold evaluated
  rw [List.filterMap_cons, h]
  rfl

/-- The results that the checks have when each gets a fresh token. -/
def freshResults (systemRoot : Str) (g : Indeterminate) (cs : List Check) :
    List (Except FileError Mask) :=
  cs.map fun c => c.result systemRoot (SecurityToken.new g)

theorem results_cons_iff (c : Check) (cs : List Check) (st : SecurityToken) :
    results systemRoot (c :: cs) st = freshResults systemRoot g (c :: cs) ↔
      c.result systemRoot st = c.result systemRoot (SecurityToken.new g) ∧
        results systemRoot cs (c.next systemRoot st) = freshResults systemRoot g cs := by
  rw [results, freshResults, List.map_cons, List.cons.injEq]
  rfl

theorem results_done_iff (cs : List Check) {st : SecurityToken} (hdone : st.done = true) :
    results systemRoot cs st = freshResults systemRoot g cs ↔
      ∀ c ∈ evaluated cs, c.1.granted systemRoot g c.2 &&& c.1.mask = st.mask &&& c.1.mask := by
  induction cs generalizing st with
  | nil => simp [results, freshResults, evaluated]
  | cons c cs ih =>
    rw [results_cons_iff]
    cases ht : c.target with
    | none =>
      obtain ⟨hnext, hresult⟩ := @run_of_no_target systemRoot g _ ht st
      rw [hnext, ih hdone, evaluated_cons_of_none ht]
      exact and_iff_right hresult
    | some target =>
      obtain ⟨hmask, hdone', hresult⟩ := @run_done systemRoot _ _ ht _ hdone
      obtain ⟨-, -, hfresh⟩ := @run_fresh systemRoot g _ _ ht
      rw [hresult, hfresh, ih hdone', hmask, evaluated_cons_of_some ht, List.forall_mem_cons,
        Except.ok.injEq, eq_comm]

def aliceReads : XmlNode :=
  .element (ascii "SECURITY") []
    (.element (ascii "USER") [attr "name" "alice", attr "password" "secret", attr "READ" "YES"]
      .null .null)
    .null

def plainEnv (doc : XmlNode) : SecurityEnv where
  regexMatch _ _ := none
  cryptCheck _ _ _ := false
  getParser _ _ _ := some doc

def allDirectories : FileSystem where
  stat _ := .ok .directory
  lstat _ := .ok .directory

def readCheck (suser sPass : String) : Check where
  env := plainEnv aliceReads
  fs := allDirectories
  suser := ascii suser
  sPass := ascii sPass
  sPath := ascii "/srv/ftp/pub"
  mask := permissionRead

end MyServer.Ftp
