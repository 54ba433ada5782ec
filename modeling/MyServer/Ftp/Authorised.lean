import MyServer.Ftp.Session

/-!
# Which mutations of a session are authorised

Each command looks up the rights and excludes the security file in its own
order. What a command has checked when it changes the file system is compared
with what the logged-in user may change.
-/

open MyServer.Files MyServer.Security MyServer.Run

namespace MyServer.Ftp

/-! ## The session -/

/-- What the last RNFR selected, and whether a rename was performed since. The code keeps no such
record: it is what a rename is judged by. -/
structure RnfrRecord where
  selected : Option Str
  used : Bool

structure SessionState where
  /-- `controlConnection` was called before. -/
  served : Bool
  data : FtpuserData
  /-- The memory that the current `Ftp` object was made in, and its token. -/
  g : Indeterminate
  st : SecurityToken
  rnfr : RnfrRecord

inductive Input where
  /-- The client's next request: a new `Ftp` object. -/
  | request (g : Indeterminate)
  /-- The next command of the request. -/
  | command (m : Moment) (c : Command)

def start : SessionState where
  served := false
  data := ⟨.noControlConnection, [], [], [], []⟩
  g := ⟨false, 0⟩
  st := SecurityToken.new ⟨false, 0⟩
  rnfr := ⟨none, false⟩

/-- The local path of an RNFR argument, if it leads somewhere at this moment. -/
def existingSource (host : FtpHost) (m : Moment) (data : FtpuserData) (sPath : Str) : Option Str :=
  match localPath host m data sPath with
  | .ok (some path) => if nodeExists m.fs path then some path else none
  | _ => none

/-- A new RNFR replaces the record, and a rename uses it up. -/
def watch (host : FtpHost) (m : Moment) (data : FtpuserData) (c : Command) (o : Outcome)
    (record : RnfrRecord) : RnfrRecord :=
  match c with
  | .rnfr sPath => ⟨if 350 ∈ o.replies then existingSource host m data sPath else none, false⟩
  | .rnto _ => if o.mutations.isEmpty then record else { record with used := true }
  | _ => record

/-- One step of the session. It ends where `controlConnection` returns `DELETE_CONNECTION`. -/
def sessionStep (cfg : FtpConfig) (host : FtpHost) (s : SessionState) :
    Input → Option (Outcome × SessionState)
  | .request g =>
    if s.served ∧ s.data.state = .noControlConnection then none
    else
      let opens : Bool := s.data.state = .noControlConnection
      let data := if opens then { s.data with state := .controlConnectionUp } else s.data
      some (⟨data, SecurityToken.new g, if opens then [220] else [], []⟩,
        { s with served := true, data := data, g := g, st := SecurityToken.new g })
  | .command m c =>
    if ¬ s.served then none
    else
      match execute cfg host m s.data s.st c with
      | .error _ => none
      | .ok o => some (o, { s with
          data := o.data
          st := o.st
          rnfr := watch host m s.data c o s.rnfr })

/-! ## What may be changed -/

/-- The user's mask for the path, as a fresh evaluation gives it, contains WRITE. -/
def Writable (host : FtpHost) (m : Moment) (g : Indeterminate) (user : Str × Str) (path : Str) :
    Prop :=
  ∃ target, splitTarget m.fs path = .ok target ∧
    (Check.granted host.systemRoot g ⟨m.env, m.fs, user.1, user.2, path, permissionWrite⟩ target)
      &&& permissionWrite ≠ 0

def loginOf (data : FtpuserData) : Str × Str := (data.suserName, data.sPass)

/-- The path is the security file of its directory, in any case. -/
def isSecurityFile (path : Str) : Bool := caseEq (splitPath path).2 (ascii ".security.xml")

def MayChange (host : FtpHost) (s : SessionState) (m : Moment) (path : Str) : Prop :=
  Writable host m s.g (loginOf s.data) path ∧ isSecurityFile path = false

/-- The old and the new name may both be changed, and the old one is what the last RNFR selected and
no rename has used. -/
def Authorised (host : FtpHost) (s : SessionState) (m : Moment) : Mutation → Prop
  | .rename before after =>
    MayChange host s m before ∧ MayChange host s m after ∧ s.rnfr = ⟨some before, false⟩
  | .remove path => MayChange host s m path
  | .mkdir path => MayChange host s m path
  | .rmdir path => MayChange host s m path
  | .write path => MayChange host s m path

def mapped (r : Except FileError (Option Str)) : List Str :=
  match r with
  | .ok (some path) => [path]
  | _ => []

def subjects (host : FtpHost) (m : Moment) (data : FtpuserData) : Command → List Str
  | .dele sPath => mapped (localPath host m data sPath)
  | .rmd sPath => mapped (localPath host m data sPath)
  | .mkd sPath => mapped (builtPath host m data sPath)
  | .stor sPath => mapped (builtPath host m data sPath)
  | .appe sPath => mapped (builtPath host m data sPath)
  | .stou sPath => (mapped (stouLoop host m data sPath m.rounds 0)).flatMap fun sOutPath =>
      mapped (builtPath host m data sOutPath)
  | .rnto sPath => data.renameFrom :: mapped (builtPath host m data sPath)
  | _ => []

/-- What the checks of a command leave open. -/
structure Sound (host : FtpHost) (s : SessionState) (m : Moment) (c : Command) : Prop where
  /-- A mask that an earlier check of the same request left in the token. -/
  stale : s.st.done = true → s.st.mask &&& permissionWrite ≠ 0 →
    ∀ path ∈ subjects host m s.data c, Writable host m s.g (loginOf s.data) path
  /-- The bare file name that DELE checks. -/
  bare : ∀ sPath, c = .dele sPath → s.st.done = false → ∀ path ∈ subjects host m s.data c,
    Writable host m s.g (resolveUser s.data.suserName s.data.sPass) (splitPath path).2 →
      Writable host m s.g (loginOf s.data) path
  /-- The new name that RNTO does not check. -/
  target : ∀ sPath, c = .rnto sPath → s.st.done = false →
    Writable host m s.g (loginOf s.data) s.data.renameFrom →
      ∀ path ∈ subjects host m s.data c, Writable host m s.g (loginOf s.data) path
  /-- The old name that RNTO keeps. -/
  once : ∀ sPath, c = .rnto sPath → s.rnfr.used = true →
    nodeExists m.fs s.data.renameFrom = false
  /-- The names that MKD and RMD do not look at. -/
  named : ∀ sPath, c = .mkd sPath ∨ c = .rmd sPath → ∀ path ∈ subjects host m s.data c,
    isSecurityFile path = false

/-! ## What one check says -/

/-- The token of a request before and after its first evaluation. -/
def TokenInv (g : Indeterminate) (st : SecurityToken) : Prop :=
  st = SecurityToken.new g ∨ (st.done = true ∧ st.vhost = none ∧ st.server = none)

theorem isSecurityName_eq {g : Indeterminate} {st : SecurityToken} (h : TokenInv g st)
    (filename : Str) : isSecurityName st filename = caseEq filename (ascii ".security.xml") := by
  have hconf : st.vhost = none ∧ st.server = none := by
    rcases h with rfl | h
    · exact ⟨rfl, rfl⟩
    · exact h.2
  have hdata : st.getData (ascii "security.filename") confRings = none := by
    simp [SecurityToken.getData, SecurityToken.ringData, confRings, hconf]
  rw [isSecurityName, hdata]
  rfl

/-- What a check that does not give 0 has looked at: the path, or the mask left by another check. -/
def Passed (host : FtpHost) (m : Moment) (g : Indeterminate) (st : SecurityToken)
    (user : Str × Str) (path : Str) : Prop :=
  (st.done = false ∧ Writable host m g user path) ∨
    (st.done = true ∧ st.mask &&& permissionWrite ≠ 0)

theorem checkRights_ok {host : FtpHost} {m : Moment} {g : Indeterminate} {st : SecurityToken}
    (hinv : TokenInv g st) {suser sPass path : Str} {mask : Mask} {r : Mask × SecurityToken}
    (h : checkRights m.env m.fs host.systemRoot suser sPass path mask st = .ok r) :
    TokenInv g r.2 ∧ (r.1 ≠ 0 → (path ≠ [] ∧ nodeExists m.fs path = true) ∧
      (mask = permissionWrite → Passed host m g st (suser, sPass) path)) := by
  by_cases hpath : path = []
  · rw [checkRights, if_pos hpath] at h
    obtain rfl := Except.ok.inj h
    exact ⟨hinv, fun h0 => absurd rfl h0⟩
  · have hrun := h
    rw [checkRights, if_neg hpath] at hrun
    obtain ⟨target, htarget, -⟩ := except_bind_eq_ok hrun
    rw [checkRights_eq hpath htarget] at h
    obtain rfl := Except.ok.inj h
    have hexists : nodeExists m.fs path = true := by
      unfold splitTarget isDirectory at htarget
      unfold nodeExists
      cases hstat : m.fs.stat (cstr path) with
      | error e => simp [hstat, Except.map] at htarget
      | ok kind => rfl
    refine ⟨Or.inr ⟨evaluateCheck_sets_done _ _, ?_⟩, ?_⟩
    · obtain ⟨hv, hs⟩ := evaluateCheck_conf m.env (checkToken host.systemRoot suser sPass target st)
      rw [hv, hs]
      rcases hinv with rfl | ⟨-, hv', hs'⟩
      · exact ⟨rfl, rfl⟩
      · exact ⟨hv', hs'⟩
    · intro hne
      refine ⟨⟨hpath, hexists⟩, ?_⟩
      rintro rfl
      rcases hinv with rfl | ⟨hdone, -⟩
      · refine Or.inl ⟨rfl, target, htarget, ?_⟩
        have hmask : (evaluateCheck m.env (checkToken host.systemRoot suser sPass target
            (SecurityToken.new g))).1.mask = Check.granted host.systemRoot g
              ⟨m.env, m.fs, suser, sPass, path, permissionWrite⟩ target := by
          rw [evaluateCheck, securityManagerMask_eq, validatorPermissionMask_mask rfl]
          rfl
        rwa [← hmask]
      · refine Or.inr ⟨hdone, ?_⟩
        rw [@evaluateCheck_done m.env (checkToken host.systemRoot suser sPass target st) hdone]
          at hne
        exact hne

theorem withRights_ok {host : FtpHost} {m : Moment} {data : FtpuserData} {g : Indeterminate}
    {st : SecurityToken} (hinv : TokenInv g st) {user : Str × Str} {path : Str} {mask : Mask}
    {denied : Nat} {go : SecurityToken → Except FileError Outcome} {o : Outcome}
    (h : withRights host m data st user path mask denied go = .ok o) :
    ∃ st', TokenInv g st' ∧ (o = reply data st' denied ∨
      (go st' = .ok o ∧ (path ≠ [] ∧ nodeExists m.fs path = true) ∧
        (mask = permissionWrite → Passed host m g st user path))) := by
  obtain ⟨r, hr, h⟩ := except_bind_eq_ok h
  obtain ⟨hinv', hpassed⟩ := checkRights_ok hinv hr
  refine ⟨r.2, hinv', ?_⟩
  split at h
  · exact Or.inl (Except.ok.inj h).symm
  · exact Or.inr ⟨h, hpassed ‹_›⟩

theorem orThrow_ok {success : Bool} {o o' : Outcome} (h : orThrow success o = .ok o') : o' = o := by
  unfold orThrow at h
  split at h
  · exact (Except.ok.inj h).symm
  · simp at h

/-! ## What one command does -/

/-- What a command has made sure of when it changes the file system. -/
def Performs (host : FtpHost) (m : Moment) (data : FtpuserData) (g : Indeterminate)
    (st : SecurityToken) (c : Command) (mutation : Mutation) : Prop :=
  match c, mutation with
  | .dele sPath, .remove path => path ∈ mapped (localPath host m data sPath) ∧
      isSecurityFile path = false ∧
      Passed host m g st (resolveUser data.suserName data.sPass) (splitPath path).2
  | .mkd sPath, .mkdir path => path ∈ mapped (builtPath host m data sPath) ∧
      Passed host m g st (loginOf data) path
  | .rmd sPath, .rmdir path => path ∈ mapped (localPath host m data sPath) ∧
      Passed host m g st (loginOf data) path
  | .stor sPath, .write path => path ∈ mapped (builtPath host m data sPath) ∧
      isSecurityFile path = false ∧ Passed host m g st (loginOf data) path
  | .appe sPath, .write path => path ∈ mapped (builtPath host m data sPath) ∧
      isSecurityFile path = false ∧ Passed host m g st (loginOf data) path
  | .stou sPath, .write path => (∃ sOutPath ∈ mapped (stouLoop host m data sPath m.rounds 0),
      path ∈ mapped (builtPath host m data sOutPath)) ∧
      isSecurityFile path = false ∧ Passed host m g st (loginOf data) path
  | .rnto sPath, .rename before after => before = data.renameFrom ∧
      after ∈ mapped (builtPath host m data sPath) ∧ isSecurityFile after = false ∧
      (before ≠ [] ∧ nodeExists m.fs before = true) ∧ Passed host m g st (loginOf data) before
  | _, _ => False

/-- A command keeps the token's invariant and, unless it is RNFR, the name that RNFR selected; what
it changes it has made sure of. -/
structure Behaves (host : FtpHost) (m : Moment) (data : FtpuserData) (g : Indeterminate)
    (st : SecurityToken) (c : Command) (o : Outcome) : Prop where
  token : TokenInv g o.st
  kept : (∀ sPath, c ≠ .rnfr sPath) → o.data.renameFrom = data.renameFrom
  performs : ∀ mutation ∈ o.mutations, Performs host m data g st c mutation

section

variable {cfg : FtpConfig} {host : FtpHost} {m : Moment} {data : FtpuserData} {g : Indeterminate}
  {st : SecurityToken} {o : Outcome} {sPath : Str}

theorem behaves_reply {c : Command} {data' : FtpuserData} {st' : SecurityToken} {codes : List Nat}
    (hinv : TokenInv g st') (hkept : data'.renameFrom = data.renameFrom) :
    Behaves host m data g st c ⟨data', st', codes, []⟩ :=
  ⟨hinv, fun _ => hkept, by simp⟩

theorem behaves_of_reply {c : Command} {data' : FtpuserData} {st' : SecurityToken}
    {codes : List Nat} (hinv : TokenInv g st')
    (h : (.ok ⟨data', st', codes, []⟩ : Except FileError Outcome) = .ok o)
    (hkept : data'.renameFrom = data.renameFrom) :
    Behaves host m data g st c o := by
  obtain rfl := Except.ok.inj h
  exact behaves_reply hinv hkept

theorem behaves_changed {c : Command} {st' : SecurityToken} {mutation : Mutation}
    (hinv : TokenInv g st') (h : Performs host m data g st c mutation) :
    Behaves host m data g st c (changed data st' mutation) :=
  ⟨hinv, fun _ => rfl, by simpa [changed] using h⟩

theorem mem_mapped {r : Except FileError (Option Str)} {path : Str} (h : r = .ok (some path)) :
    path ∈ mapped r := by
  simp [h, mapped]

theorem cwd_behaves (hinv : TokenInv g st) (h : cwdCommand host m data st sPath = .ok o) :
    Behaves host m data g st (.cwd sPath) o := by
  unfold cwdCommand at h
  split at h
  · exact behaves_of_reply hinv h rfl
  obtain ⟨r, -, h⟩ := except_bind_eq_ok h
  cases r with
  | none =>
    exact behaves_of_reply hinv h rfl
  | some sLocalPath =>
    obtain ⟨isDir, -, h⟩ := except_bind_eq_ok h
    split at h
    · exact behaves_of_reply hinv h rfl
    · exact behaves_of_reply hinv h rfl

/-- What STOR, APPE and STOU have in common, for the path that they hand over. -/
theorem retrstor_behaves (hinv : TokenInv g st) {bretr : Bool}
    (h : retrstor host m data st bretr sPath = .ok o) :
    TokenInv g o.st ∧ o.data.renameFrom = data.renameFrom ∧
      ∀ mutation ∈ o.mutations, bretr = false ∧ ∃ path, mutation = .write path ∧
        path ∈ mapped (builtPath host m data sPath) ∧ isSecurityFile path = false ∧
          Passed host m g st (loginOf data) path := by
  unfold retrstor at h
  split at h
  · obtain rfl := Except.ok.inj h
    exact ⟨hinv, rfl, by simp [reply]⟩
  obtain ⟨r, hr, h⟩ := except_bind_eq_ok h
  cases r with
  | none =>
    obtain rfl := Except.ok.inj h
    exact ⟨hinv, rfl, by simp [reply]⟩
  | some sLocalPath =>
    dsimp only at h
    split at h
    · obtain rfl := Except.ok.inj h
      exact ⟨hinv, rfl, by simp [reply]⟩
    rename_i hsec
    obtain ⟨st', hinv', rfl | ⟨h, -, hpassed⟩⟩ := withRights_ok hinv h
    · exact ⟨hinv', rfl, by simp [reply]⟩
    obtain ⟨isDir, -, h⟩ := except_bind_eq_ok h
    split at h
    · obtain rfl := Except.ok.inj h
      exact ⟨hinv', rfl, by simp [reply]⟩
    obtain rfl := Except.ok.inj h
    unfold transfer
    dsimp only
    split
    · refine ⟨hinv', rfl, ?_⟩
      dsimp only
      split
      · simp
      rename_i hopen
      intro mutation hmem
      obtain rfl := List.mem_singleton.mp hmem
      have hstore : bretr = false := by
        cases bretr with
        | true => exact absurd (Or.inl rfl) hopen
        | false => rfl
      subst hstore
      refine ⟨rfl, sLocalPath, rfl, mem_mapped hr, ?_, hpassed rfl⟩
      rw [isSecurityName_eq hinv] at hsec
      simpa [isSecurityFile] using hsec
    · exact ⟨hinv', rfl, by simp⟩

theorem retr_behaves (hinv : TokenInv g st) (h : retrstor host m data st true sPath = .ok o) :
    Behaves host m data g st (.retr sPath) o := by
  obtain ⟨htoken, hkept, hmut⟩ := retrstor_behaves hinv h
  refine ⟨htoken, fun _ => hkept, ?_⟩
  intro mutation hmem
  simp at hmut
  exact absurd hmem (hmut mutation)

theorem stor_behaves (hinv : TokenInv g st) (h : stor cfg host m data st sPath = .ok o) :
    Behaves host m data g st (.stor sPath) o ∧ Behaves host m data g st (.appe sPath) o := by
  unfold stor at h
  split at h
  · obtain rfl := Except.ok.inj h
    exact ⟨behaves_reply hinv rfl, behaves_reply hinv rfl⟩
  obtain ⟨htoken, hkept, hmut⟩ := retrstor_behaves hinv h
  constructor <;>
  · refine ⟨htoken, fun _ => hkept, ?_⟩
    intro mutation hmem
    obtain ⟨-, path, rfl, hpath⟩ := hmut mutation hmem
    exact hpath

theorem stou_behaves (hinv : TokenInv g st) (h : stou cfg host m data st sPath = .ok o) :
    Behaves host m data g st (.stou sPath) o := by
  unfold stou at h
  split at h
  · exact behaves_of_reply hinv h rfl
  obtain ⟨r, hr, h⟩ := except_bind_eq_ok h
  cases r with
  | none =>
    exact behaves_of_reply hinv h rfl
  | some sOutPath =>
    obtain ⟨htoken, hkept, hmut⟩ := retrstor_behaves hinv h
    refine ⟨htoken, fun _ => hkept, ?_⟩
    intro mutation hmem
    obtain ⟨-, path, rfl, hpath, hrest⟩ := hmut mutation hmem
    exact ⟨⟨sOutPath, mem_mapped hr, hpath⟩, hrest⟩

theorem dele_behaves (hinv : TokenInv g st) (h : dele cfg host m data st sPath = .ok o) :
    Behaves host m data g st (.dele sPath) o := by
  unfold dele at h
  split at h
  · exact behaves_of_reply hinv h rfl
  obtain ⟨r, hr, h⟩ := except_bind_eq_ok h
  cases r with
  | none =>
    exact behaves_of_reply hinv h rfl
  | some sLocalPath =>
    dsimp only at h
    split at h
    · exact behaves_of_reply hinv h rfl
    split at h
    · exact behaves_of_reply hinv h rfl
    rename_i hsec
    obtain ⟨st', hinv', rfl | ⟨h, -, hpassed⟩⟩ := withRights_ok hinv h
    · exact behaves_reply hinv' rfl
    obtain rfl := orThrow_ok h
    rw [isSecurityName_eq hinv] at hsec
    exact behaves_changed hinv' ⟨mem_mapped hr, by simpa [isSecurityFile] using hsec, hpassed rfl⟩

theorem mkd_behaves (hinv : TokenInv g st) (h : mkd cfg host m data st sPath = .ok o) :
    Behaves host m data g st (.mkd sPath) o := by
  unfold mkd at h
  split at h
  · exact behaves_of_reply hinv h rfl
  split at h
  · exact behaves_of_reply hinv h rfl
  obtain ⟨r, hr, h⟩ := except_bind_eq_ok h
  cases r with
  | none =>
    exact behaves_of_reply hinv h rfl
  | some sLocalPath =>
    obtain ⟨st', hinv', rfl | ⟨h, -, hpassed⟩⟩ := withRights_ok hinv h
    · exact behaves_reply hinv' rfl
    obtain rfl := orThrow_ok h
    exact behaves_changed hinv' ⟨mem_mapped hr, hpassed rfl⟩

theorem rmd_behaves (hinv : TokenInv g st) (h : rmd cfg host m data st sPath = .ok o) :
    Behaves host m data g st (.rmd sPath) o := by
  unfold rmd at h
  split at h
  · exact behaves_of_reply hinv h rfl
  split at h
  · exact behaves_of_reply hinv h rfl
  split at h
  · exact behaves_of_reply hinv h rfl
  obtain ⟨r, hr, h⟩ := except_bind_eq_ok h
  cases r with
  | none =>
    exact behaves_of_reply hinv h rfl
  | some sLocalPath =>
    obtain ⟨st', hinv', rfl | ⟨h, -, hpassed⟩⟩ := withRights_ok hinv h
    · exact behaves_reply hinv' rfl
    obtain rfl := orThrow_ok h
    exact behaves_changed hinv' ⟨mem_mapped hr, hpassed rfl⟩

theorem rnto_behaves (hinv : TokenInv g st) (h : rnto cfg host m data st sPath = .ok o) :
    Behaves host m data g st (.rnto sPath) o := by
  unfold rnto at h
  split at h
  · exact behaves_of_reply hinv h rfl
  split at h
  · exact behaves_of_reply hinv h rfl
  obtain ⟨r, hr, h⟩ := except_bind_eq_ok h
  cases r with
  | none =>
    exact behaves_of_reply hinv h rfl
  | some sLocalPath =>
    dsimp only at h
    split at h
    · exact behaves_of_reply hinv h rfl
    obtain ⟨st', hinv', rfl | ⟨h, hexists, hpassed⟩⟩ := withRights_ok hinv h
    · exact behaves_reply hinv' rfl
    split at h
    · exact behaves_of_reply hinv' h rfl
    rename_i hsec
    obtain ⟨_, -, h⟩ := except_bind_eq_ok h
    obtain rfl := orThrow_ok h
    rw [isSecurityName_eq hinv'] at hsec
    exact behaves_changed hinv'
      ⟨rfl, mem_mapped hr, by simpa [isSecurityFile] using hsec, hexists, hpassed rfl⟩

theorem listChecks_token {guest : Str} {names : List Str} {st' : SecurityToken}
    (hinv : TokenInv g st) (h : listChecks host m data guest names st = .ok st') :
    TokenInv g st' := by
  induction names generalizing st with
  | nil =>
    obtain rfl := Except.ok.inj h
    exact hinv
  | cons name names ih =>
    obtain ⟨guestMask, hguest, h⟩ := except_bind_eq_ok h
    obtain ⟨pMask, hown, h⟩ := except_bind_eq_ok h
    exact ih (checkRights_ok (checkRights_ok hinv hguest).1 hown).1 h

theorem list_behaves (hinv : TokenInv g st) (h : list host m data st sPath = .ok o) :
    Behaves host m data g st (.list sPath) o := by
  unfold list at h
  split at h
  · exact behaves_of_reply hinv h rfl
  obtain ⟨r, -, h⟩ := except_bind_eq_ok h
  cases r with
  | none =>
    exact behaves_of_reply hinv h rfl
  | some sLocalPath =>
    dsimp only at h
    split at h
    · exact behaves_of_reply hinv h rfl
    obtain ⟨st', hinv', rfl | ⟨h, -, -⟩⟩ := withRights_ok hinv h
    · exact behaves_reply hinv' rfl
    obtain ⟨names, -, h⟩ := except_bind_eq_ok h
    cases names with
    | none =>
      exact behaves_of_reply hinv' h rfl
    | some names =>
      obtain ⟨st'', hchecks, h⟩ := except_bind_eq_ok h
      obtain rfl := Except.ok.inj h
      exact behaves_reply (listChecks_token hinv' hchecks) rfl

/-- RNFR replies 350 exactly when it selects an existing path, which is no security file. -/
theorem rnfr_behaves (hinv : TokenInv g st) (h : rnfr host m data st sPath = .ok o) :
    Behaves host m data g st (.rnfr sPath) o ∧
      ((350 ∉ o.replies ∧ o.data.renameFrom = []) ∨
        (350 ∈ o.replies ∧ existingSource host m data sPath = some o.data.renameFrom ∧
          isSecurityFile o.data.renameFrom = false)) := by
  have hnot : ∀ {o : Outcome}, o.mutations = [] → o.st = st →
      Behaves host m data g st (.rnfr sPath) o := by
    intro o hmut hst
    exact ⟨hst ▸ hinv, fun h => absurd rfl (h sPath), by simp [hmut]⟩
  unfold rnfr at h
  dsimp only at h
  split at h
  · obtain rfl := Except.ok.inj h
    exact ⟨hnot rfl rfl, Or.inl ⟨by simp [reply], rfl⟩⟩
  split at h
  · obtain rfl := Except.ok.inj h
    exact ⟨hnot rfl rfl, Or.inl ⟨by simp [reply], rfl⟩⟩
  obtain ⟨r, hr, h⟩ := except_bind_eq_ok h
  cases r with
  | none =>
    obtain rfl := Except.ok.inj h
    exact ⟨hnot rfl rfl, Or.inl ⟨by simp, rfl⟩⟩
  | some sLocalPath =>
    dsimp only at h
    split at h
    · obtain rfl := Except.ok.inj h
      exact ⟨hnot rfl rfl, Or.inl ⟨by simp [reply], rfl⟩⟩
    rename_i hsec
    obtain rfl := Except.ok.inj h
    rw [isSecurityName_eq hinv] at hsec
    have hlocal : localPath host m data sPath = .ok (some sLocalPath) := hr
    have hexists : nodeExists m.fs sLocalPath = true := getLocalPath_exists host hlocal
    refine ⟨hnot rfl rfl, Or.inr ⟨by simp [reply], ?_, by simpa [isSecurityFile, reply] using hsec⟩⟩
    rw [existingSource, hlocal]
    simp [hexists, reply]

theorem execute_behaves {c : Command} (hinv : TokenInv g st)
    (h : execute cfg host m data st c = .ok o) : Behaves host m data g st c o := by
  cases c with
  | user sParam =>
    obtain rfl := Except.ok.inj h
    unfold user
    split <;> exact behaves_reply hinv rfl
  | password sParam =>
    obtain rfl := Except.ok.inj h
    unfold password
    split <;> exact behaves_reply hinv rfl
  | quit =>
    exact behaves_of_reply hinv h rfl
  | other =>
    exact behaves_of_reply hinv h rfl
  | cwd sPath => exact cwd_behaves hinv h
  | retr sPath => exact retr_behaves hinv h
  | list sParam => exact list_behaves hinv h
  | stor sPath => exact (stor_behaves hinv h).1
  | appe sPath => exact (stor_behaves hinv h).2
  | stou sPath => exact stou_behaves hinv h
  | dele sPath => exact dele_behaves hinv h
  | mkd sPath => exact mkd_behaves hinv h
  | rmd sPath => exact rmd_behaves hinv h
  | rnfr sPath => exact (rnfr_behaves hinv h).1
  | rnto sPath => exact rnto_behaves hinv h

end

/-! ## What holds through a session -/

/-- The name that the code would rename is what the record says, and it is no security file. -/
structure SessionInv (s : SessionState) : Prop where
  token : TokenInv s.g s.st
  selected : s.data.renameFrom = s.rnfr.selected.getD []
  source : ∀ path ∈ s.rnfr.selected, isSecurityFile path = false

theorem start_inv : SessionInv start := ⟨Or.inl rfl, rfl, by simp [start]⟩

theorem watch_of_not_rnfr {host : FtpHost} {m : Moment} {data : FtpuserData} {c : Command}
    {o : Outcome} {record : RnfrRecord} (h : ∀ sPath, c ≠ .rnfr sPath) :
    (watch host m data c o record).selected = record.selected := by
  unfold watch
  split
  · exact absurd rfl (h _)
  · split <;> rfl
  · rfl

theorem sessionStep_inv {cfg : FtpConfig} {host : FtpHost} (s : SessionState) (i : Input)
    (o : Outcome) (s' : SessionState) (hinv : SessionInv s)
    (h : sessionStep cfg host s i = some (o, s')) : SessionInv s' := by
  cases i with
  | request g =>
    simp only [sessionStep] at h
    split at h
    · simp at h
    obtain ⟨-, rfl⟩ := Prod.mk.inj (Option.some.inj h)
    refine ⟨Or.inl rfl, ?_, hinv.source⟩
    dsimp only
    split <;> exact hinv.selected
  | command m c =>
    simp only [sessionStep] at h
    split at h
    · simp at h
    cases hrun : execute cfg host m s.data s.st c with
    | error e => simp [hrun] at h
    | ok o' =>
      rw [hrun] at h
      obtain ⟨rfl, rfl⟩ := Prod.mk.inj (Option.some.inj h)
      have hbehaves := execute_behaves hinv.token hrun
      by_cases hc : ∃ sPath, c = .rnfr sPath
      · obtain ⟨sPath, rfl⟩ := hc
        refine ⟨hbehaves.token, ?_, ?_⟩
        · rcases (rnfr_behaves hinv.token hrun).2 with ⟨hcode, hfrom⟩ | ⟨hcode, hsource, -⟩
          · simp [watch, hcode, hfrom]
          · simp [watch, hcode, hsource]
        · rcases (rnfr_behaves hinv.token hrun).2 with ⟨hcode, -⟩ | ⟨hcode, hsource, hsec⟩
          · simp [watch, hcode]
          · simpa [watch, hcode, hsource] using hsec
      · have hnot : ∀ sPath, c ≠ .rnfr sPath := fun sPath hc' => hc ⟨sPath, hc'⟩
        refine ⟨hbehaves.token, ?_, ?_⟩
        · dsimp only
          rw [watch_of_not_rnfr hnot, hbehaves.kept hnot]
          exact hinv.selected
        · dsimp only
          rw [watch_of_not_rnfr hnot]
          exact hinv.source

/-! ## Authorised mutations -/

section

variable {host : FtpHost} {s : SessionState} {m : Moment} {c : Command} {path : Str}

theorem mapped_of_mem {r : Except FileError (Option Str)} (h : path ∈ mapped r) :
    mapped r = [path] := by
  unfold mapped at h ⊢
  split at h
  · simpa [eq_comm] using h
  · simp at h

theorem sound_of_mayChange (h : ∀ path ∈ subjects host m s.data c, MayChange host s m path)
    (honce : ∀ sPath, c = .rnto sPath → s.rnfr.used = false) : Sound host s m c where
  stale _ _ path hmem := (h path hmem).1
  bare _ _ _ path hmem _ := (h path hmem).1
  target _ _ _ _ path hmem := (h path hmem).1
  once sPath hc hused := by simp [honce sPath hc] at hused
  named _ _ path hmem := (h path hmem).2

theorem mayChange_of_sound (hs : Sound host s m c) (hmem : path ∈ subjects host m s.data c)
    {user : Str × Str} {checked : Str} (hpassed : Passed host m s.g s.st user checked)
    (hfresh : s.st.done = false → Writable host m s.g user checked →
      Writable host m s.g (loginOf s.data) path)
    (hname : isSecurityFile path = false) : MayChange host s m path := by
  refine ⟨?_, hname⟩
  rcases hpassed with ⟨hdone, hw⟩ | ⟨hdone, hmask⟩
  · exact hfresh hdone hw
  · exact hs.stale hdone hmask path hmem

theorem single_authorised_iff (hsub : subjects host m s.data c = [path])
    (hc : ∀ sPath, c ≠ .rnto sPath) {user : Str × Str} {checked : Str}
    (hpassed : Passed host m s.g s.st user checked)
    (hfresh : Sound host s m c → s.st.done = false → Writable host m s.g user checked →
      Writable host m s.g (loginOf s.data) path)
    (hname : Sound host s m c → isSecurityFile path = false) :
    MayChange host s m path ↔ Sound host s m c := by
  constructor
  · intro h
    apply sound_of_mayChange
    · intro path' hmem
      rw [hsub, List.mem_singleton] at hmem
      exact hmem ▸ h
    · exact fun sPath heq => absurd heq (hc sPath)
  · intro hs
    exact mayChange_of_sound hs (by simp [hsub]) hpassed (hfresh hs) (hname hs)

theorem rename_authorised_iff {sPath before after : Str} (hinv : SessionInv s)
    (hp : Performs host m s.data s.g s.st (.rnto sPath) (.rename before after)) :
    Authorised host s m (.rename before after) ↔ Sound host s m (.rnto sPath) := by
  obtain ⟨rfl, hafter, hname, ⟨hne, hexists⟩, hpassed⟩ := hp
  have hsub : subjects host m s.data (.rnto sPath) = [s.data.renameFrom, after] := by
    rw [subjects, mapped_of_mem hafter]
  have hselected : s.rnfr.selected = some s.data.renameFrom := by
    have hfrom := hinv.selected
    cases hsel : s.rnfr.selected with
    | none => exact absurd (by simpa [hsel] using hfrom) hne
    | some path => simp [hsel] at hfrom; simp [hfrom]
  constructor
  · rintro ⟨hbefore, hmay, hrecord⟩
    apply sound_of_mayChange
    · intro path hmem
      rw [hsub] at hmem
      rcases List.mem_cons.mp hmem with rfl | hmem
      · exact hbefore
      · exact List.mem_singleton.mp hmem ▸ hmay
    · intro _ _
      simp [hrecord]
  · intro hs
    refine ⟨?_, ?_, ?_⟩
    · exact mayChange_of_sound hs (by simp [hsub]) hpassed (fun _ hw => hw)
        (hinv.source _ hselected)
    · exact mayChange_of_sound hs (by simp [hsub]) hpassed
        (fun hdone hw => hs.target sPath rfl hdone hw after (by simp [hsub])) hname
    · have hused : s.rnfr.used = false := by
        cases hu : s.rnfr.used with
        | false => rfl
        | true => simp [hs.once sPath rfl hu] at hexists
      rw [← hselected, ← hused]

/-- What a command has performed is authorised exactly when nothing that it does not check stands in
the way. -/
theorem performs_authorised_iff {mutation : Mutation} (hinv : SessionInv s)
    (hp : Performs host m s.data s.g s.st c mutation) :
    Authorised host s m mutation ↔ Sound host s m c := by
  cases c with
  | rnto sPath =>
    cases mutation with
    | rename before after => exact rename_authorised_iff hinv hp
    | _ => exact hp.elim
  | dele sPath =>
    cases mutation with
    | remove path =>
      obtain ⟨hmem, hname, hpassed⟩ := hp
      have hsub : subjects host m s.data (.dele sPath) = [path] := mapped_of_mem hmem
      exact single_authorised_iff hsub (by simp) hpassed
        (fun hs hdone hw => hs.bare sPath rfl hdone path (by simp [hsub]) hw) (fun _ => hname)
    | _ => exact hp.elim
  | mkd sPath =>
    cases mutation with
    | mkdir path =>
      have hsub : subjects host m s.data (.mkd sPath) = [path] := mapped_of_mem hp.1
      exact single_authorised_iff hsub (by simp) hp.2 (fun _ _ hw => hw)
        (fun hs => hs.named sPath (Or.inl rfl) path (by simp [hsub]))
    | _ => exact hp.elim
  | rmd sPath =>
    cases mutation with
    | rmdir path =>
      have hsub : subjects host m s.data (.rmd sPath) = [path] := mapped_of_mem hp.1
      exact single_authorised_iff hsub (by simp) hp.2 (fun _ _ hw => hw)
        (fun hs => hs.named sPath (Or.inr rfl) path (by simp [hsub]))
    | _ => exact hp.elim
  | stor sPath =>
    cases mutation with
    | write path =>
      obtain ⟨hmem, hname, hpassed⟩ := hp
      exact single_authorised_iff (mapped_of_mem hmem) (by simp) hpassed (fun _ _ hw => hw)
        (fun _ => hname)
    | _ => exact hp.elim
  | appe sPath =>
    cases mutation with
    | write path =>
      obtain ⟨hmem, hname, hpassed⟩ := hp
      exact single_authorised_iff (mapped_of_mem hmem) (by simp) hpassed (fun _ _ hw => hw)
        (fun _ => hname)
    | _ => exact hp.elim
  | stou sPath =>
    cases mutation with
    | write path =>
      obtain ⟨⟨sOutPath, hout, hmem⟩, hname, hpassed⟩ := hp
      have hsub : subjects host m s.data (.stou sPath) = [path] := by
        simp [subjects, mapped_of_mem hout, mapped_of_mem hmem]
      exact single_authorised_iff hsub (by simp) hpassed (fun _ _ hw => hw) (fun _ => hname)
    | _ => exact hp.elim
  | _ => exact hp.elim

end

def aliceWrites : XmlNode :=
  .element (ascii "SECURITY") []
    (.element (ascii "USER") [attr "name" "alice", attr "password" "secret", attr "WRITE" "YES"]
      .null .null)
    .null

/-- Only the directory `in` has a security file, and every system call goes through. -/
def writableIn : Moment where
  env := { plainEnv aliceWrites with
    getParser := fun dir _ _ => if dir = ascii "/srv/ftp/in/" then some aliceWrites else none }
  fs := allFiles
  dataConnection := true
  entries _ := none
  remove _ := true
  mkdir _ := true
  rmdir _ := true
  rename _ _ := true
  openFile _ := true
  rounds := 1

def renameSession : List Input :=
  [.request ⟨false, 0⟩, .command writableIn (.user (ascii "alice")),
    .command writableIn (.password (ascii "secret")), .command writableIn (.rnfr (ascii "in/a")),
    .command writableIn (.rnto (ascii "out/b"))]

end MyServer.Ftp
