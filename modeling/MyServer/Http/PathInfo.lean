import MyServer.Security.ReadBack

/-!
# PATH_INFO

`Http::preprocessHttpRequest`: the part of a mapped path that is a file, and what comes behind it.
-/

open MyServer.Files MyServer.Security

namespace MyServer.Files

/-- `FilesUtility::notDirectory`, with the paths for which `errno` is `ENOTDIR`. -/
def notDirectory (fs : FileSystem) (enotdir : Str → Bool) (path : Str) : Except FileError Bool :=
  match fs.stat (cstr path) with
  | .ok kind => .ok (kind ≠ .directory)
  | .error .fileNotFound => .ok true
  | .error .other => if enotdir (cstr path) then .ok true else .error .other

end MyServer.Files

namespace MyServer.Http

/-- What the request finds outside of itself. -/
structure PathSystem (M : Type) where
  fs : FileSystem
  enotdir : Str → Bool
  /-- What `getdefaultwd` returns. -/
  wd : Str
  wd_absolute : wd.head? = some slash
  /-- `host->getLocationMime`. -/
  locationMime : Str → Option M
  getMIME : Str → Option M

/-- `std::string::find`, `none` for `npos`. -/
def findFrom (path : Str) (c : Byte) (pos : Nat) : Option Nat :=
  ((path.drop pos).findIdx? fun b => b = c).map fun i => pos + i

/-- How the loop over the slashes ends: at a location handler with the slash behind it, or at the end of the
path with `splitPoint`. -/
inductive Scanned (M : Type) where
  | location (mime : M) (next : Option Nat)
  | path (splitPoint : Option Nat)

section

variable {M : Type} (env : SecurityEnv) (sys : PathSystem M)

/-- The loop from `i` on, for so many rounds at most; `none` where it throws. -/
def scanPath (path : Str) (resOffset : Nat) : Nat → Nat → Option Nat → Option (Scanned M)
  | 0, _, _ => none
  | n + 1, i, splitPoint =>
    let next := findFrom path slash (i + 1)
    let curr := next.elim path path.take
    if curr.length < resOffset then none
    else
      match sys.locationMime (curr.drop resOffset) with
      | some mime => some (.location mime next)
      | none =>
        match next with
        | none => some (.path splitPoint)
        | some next =>
          if splitPoint ≠ some 0 then
            (notDirectory sys.fs sys.enotdir curr).toOption.bind fun isNot =>
              scanPath path resOffset n next (if isNot then some next else splitPoint)
          else scanPath path resOffset n next splitPoint

/-- The file name, PATH_INFO and the record of the location. -/
def splitPathInfo (path : Str) (resOffset : Nat) : Except Nat (Str × Str × Option M) :=
  match scanPath sys path resOffset (path.length + 1) resOffset none with
  | none => .error 500
  | some (.location mime none) => .ok (path, [], some mime)
  | some (.location mime (some next)) => .ok (path.take next, cstr (path.drop next), some mime)
  | some (.path none) => if nodeExists sys.fs path then .ok (path, [], none) else .error 404
  | some (.path (some splitPoint)) => .ok (path.take splitPoint, cstr (path.drop splitPoint), none)

/-- What `preprocessHttpRequest` leaves in the thread's context. -/
structure Preprocessed (M : Type) where
  filenamePath : Str
  pathInfo : Str
  pathTranslated : Str
  mime : Option M

/-- The slash at the beginning is left out. -/
def pathTranslated (c : HttpConnection) (pathInfo : Str) : Str :=
  if pathInfo.length ≤ 1 then []
  else
    match getPath c.td [] (pathInfo.drop 1) false with
    | .ok path => completePath sys.wd path
    | .error _ => []

def resOffset (c : HttpConnection) (systemrequest : Bool) : Nat :=
  c.td.host.elim 0 fun host => if systemrequest then host.systemRoot.length else host.documentRoot.length

/-- `Http::preprocessHttpRequest`. An error is the HTTP code. -/
def preprocessHttpRequest (c : HttpConnection) (resource : Str) (yetmapped : Bool) (permissions : Mask)
    (st : SecurityToken) (systemrequest : Bool) : Except Nat (FilePermissions × Preprocessed M) :=
  (getFilePermissions env sys.fs c resource yetmapped permissions st).bind fun perms =>
  (requestTarget sys.fs c resource yetmapped).bind fun target =>
  (splitPathInfo sys target.1 (resOffset c systemrequest)).map fun split =>
    let filenamePath := completePath sys.wd split.1
    (perms, ⟨filenamePath, split.2.1, pathTranslated sys c split.2.1, split.2.2.or (sys.getMIME filenamePath)⟩)

end

section

variable {M : Type} {env : SecurityEnv} {sys : PathSystem M} {path root : Str} {i n offset p q : Nat} {sp : Option Nat}

/-- A slash behind this place in the path. -/
def SlashAt (path : Str) (offset n : Nat) : Prop := offset < n ∧ path[n]? = some slash

/-- The path up to this slash is the shortest one that is no directory. -/
structure Shortest (sys : PathSystem M) (path : Str) (offset p : Nat) : Prop where
  slash : SlashAt path offset p
  isNot : notDirectory sys.fs sys.enotdir (path.take p) = .ok true
  first : ∀ q, SlashAt path offset q → q < p → notDirectory sys.fs sys.enotdir (path.take q) ≠ .ok true

/-- It is the only one, the others are directories, and the rest of the path is a C string. -/
structure OnlyOne (sys : PathSystem M) (path : Str) (offset p : Nat) : Prop where
  slash : SlashAt path offset p
  isNot : notDirectory sys.fs sys.enotdir (path.take p) = .ok true
  others : ∀ q, SlashAt path offset q → q ≠ p → notDirectory sys.fs sys.enotdir (path.take q) = .ok false
  text : (0 : Byte) ∉ path.drop p

/-- The request is split there. -/
def SplitAt (r : Except Nat (FilePermissions × Preprocessed M)) (path : Str) (p : Nat) : Prop :=
  ∃ perms out, r = .ok (perms, out) ∧ out.filenamePath = path.take p ∧ out.pathInfo = path.drop p ∧
    out.filenamePath ++ out.pathInfo = path

/-! ## The loop -/

theorem findFrom_none {c : Byte} (hfind : findFrom path c n = none) (hq : n ≤ q) : path[q]? ≠ some c := by
  intro hread
  unfold findFrom at hfind
  rw [Option.map_eq_none_iff, List.findIdx?_eq_none_iff] at hfind
  have hmem : c ∈ path.drop n := by
    refine List.mem_of_getElem? (i := q - n) ?_
    rw [List.getElem?_drop, Nat.add_sub_cancel' hq, hread]
  simpa using hfind c hmem

theorem findFrom_some {c : Byte} (hfind : findFrom path c n = some p) :
    n ≤ p ∧ path[p]? = some c ∧ ∀ q, n ≤ q → q < p → path[q]? ≠ some c := by
  obtain ⟨i, hi, rfl⟩ := Option.map_eq_some_iff.mp hfind
  obtain ⟨hlt, hc, hbefore⟩ := List.findIdx?_eq_some_iff_getElem.mp hi
  refine ⟨Nat.le_add_right _ _, ?_, ?_⟩
  · rw [← List.getElem?_drop, List.getElem?_eq_getElem hlt]
    simpa using hc
  · intro q hq hqp hread
    have hnot := hbefore (q - n) (by omega)
    have hq' : n + (q - n) = q := Nat.add_sub_cancel' hq
    obtain ⟨_, hread⟩ := List.getElem?_eq_some_iff.mp hread
    simp [List.getElem_drop, hq', hread] at hnot

theorem scanPath_step (hloc : ∀ r, sys.locationMime r = none) (hi : offset ≤ i) (hlength : offset ≤ path.length)
    (hsp : sp ≠ some 0) :
    scanPath sys path offset (n + 1) i sp =
      match findFrom path slash (i + 1) with
      | none => some (.path sp)
      | some next => (notDirectory sys.fs sys.enotdir (path.take next)).toOption.bind fun isNot =>
          scanPath sys path offset n next (if isNot then some next else sp) := by
  rw [scanPath]
  cases hfind : findFrom path slash (i + 1) with
  | none =>
    have hlong : ¬path.length < offset := Nat.not_lt.mpr hlength
    simp only [Option.elim_none, hloc, hlong, if_false]
  | some next =>
    obtain ⟨hle, hread, -⟩ := findFrom_some hfind
    have hlt := (List.getElem?_eq_some_iff.mp hread).1
    have hlong : ¬(path.take next).length < offset := by
      rw [List.length_take]
      omega
    simp only [Option.elim_some, hloc, hlong, if_false, hsp, ne_eq, not_false_eq_true, if_true]

/-- How the loop can end: with the last place behind `i` that is no directory, or with what it began with. -/
def Last (sys : PathSystem M) (path : Str) (i : Nat) (sp r : Option Nat) : Prop :=
  (r = sp ∧ ∀ q, SlashAt path i q → notDirectory sys.fs sys.enotdir (path.take q) = .ok false) ∨
    ∃ p, r = some p ∧ SlashAt path i p ∧ notDirectory sys.fs sys.enotdir (path.take p) = .ok true ∧
      ∀ q, SlashAt path p q → notDirectory sys.fs sys.enotdir (path.take q) = .ok false

theorem scanPath_spec (hloc : ∀ r, sys.locationMime r = none) (hi : offset ≤ i) (hlength : offset ≤ path.length)
    (hsp : sp ≠ some 0) {out : Scanned M} (hscan : scanPath sys path offset n i sp = some out) :
    (∀ q, SlashAt path i q → ∃ b, notDirectory sys.fs sys.enotdir (path.take q) = .ok b) ∧
      ∃ r, out = .path r ∧ Last sys path i sp r := by
  induction n generalizing i sp with
  | zero => cases hscan
  | succ n ih =>
    rw [scanPath_step hloc hi hlength hsp] at hscan
    cases hfind : findFrom path slash (i + 1) with
    | none =>
      rw [hfind] at hscan
      cases hscan
      have hnone : ∀ q, ¬SlashAt path i q := fun q hq => findFrom_none hfind hq.1 hq.2
      exact ⟨fun q hq => absurd hq (hnone q), sp, rfl, Or.inl ⟨rfl, fun q hq => absurd hq (hnone q)⟩⟩
    | some next =>
      rw [hfind] at hscan
      dsimp only at hscan
      obtain ⟨isNot, hnot, hscan⟩ := Option.bind_eq_some_iff.mp hscan
      obtain ⟨hle, hread, hbetween⟩ := findFrom_some hfind
      have hnd : notDirectory sys.fs sys.enotdir (path.take next) = .ok isNot := by
        cases hcase : notDirectory sys.fs sys.enotdir (path.take next) with
        | error e =>
          rw [hcase] at hnot
          cases hnot
        | ok b =>
          rw [hcase] at hnot
          cases hnot
          rfl
      have hcases : ∀ q, SlashAt path i q → q = next ∨ SlashAt path next q := by
        rintro q ⟨hq, hslash⟩
        rcases Nat.lt_trichotomy q next with hlt | heq | hgt
        · exact absurd hslash (hbetween q hq hlt)
        · exact Or.inl heq
        · exact Or.inr ⟨hgt, hslash⟩
      have hsp' : (if isNot = true then some next else sp) ≠ some 0 := by
        split_ifs
        · rintro heq
          cases heq
          omega
        · exact hsp
      obtain ⟨hall, r, rfl, hlast⟩ := ih (by omega) hsp' hscan
      refine ⟨?_, r, rfl, ?_⟩
      · intro q hq
        rcases hcases q hq with rfl | hafter
        · exact ⟨isNot, hnd⟩
        · exact hall q hafter
      · rcases hlast with ⟨rfl, hothers⟩ | ⟨p, rfl, hp, hpnot, hothers⟩
        · cases isNot with
          | true => exact Or.inr ⟨next, rfl, ⟨hle, hread⟩, hnd, hothers⟩
          | false =>
            refine Or.inl ⟨rfl, fun q hq => ?_⟩
            rcases hcases q hq with rfl | hafter
            · exact hnd
            · exact hothers q hafter
        · exact Or.inr ⟨p, rfl, ⟨by have hlt := hp.1; omega, hp.2⟩, hpnot, hothers⟩

/-- It does not throw where each prefix can be looked at, and it has rounds enough. -/
theorem scanPath_some (hloc : ∀ r, sys.locationMime r = none) (hi : offset ≤ i) (hlength : offset ≤ path.length)
    (hsp : sp ≠ some 0) (hn : path.length < n + i) (hpos : 0 < n)
    (hall : ∀ q, SlashAt path i q → ∃ b, notDirectory sys.fs sys.enotdir (path.take q) = .ok b) :
    ∃ out, scanPath sys path offset n i sp = some out := by
  induction n generalizing i sp with
  | zero => exact absurd hpos (Nat.lt_irrefl 0)
  | succ n ih =>
    rw [scanPath_step hloc hi hlength hsp]
    cases hfind : findFrom path slash (i + 1) with
    | none => exact ⟨_, rfl⟩
    | some next =>
      obtain ⟨hle, hread, -⟩ := findFrom_some hfind
      have hlt := (List.getElem?_eq_some_iff.mp hread).1
      obtain ⟨b, hb⟩ := hall next ⟨hle, hread⟩
      have hsp' : (if b = true then some next else sp) ≠ some 0 := by
        split_ifs
        · rintro heq
          cases heq
          omega
        · exact hsp
      have hafter : ∀ q, SlashAt path next q → ∃ b, notDirectory sys.fs sys.enotdir (path.take q) = .ok b :=
        fun q hq => hall q ⟨by have hlt' := hq.1; omega, hq.2⟩
      obtain ⟨out, hout⟩ := @ih next _ (by omega) hsp' (by omega) (by omega) hafter
      refine ⟨out, ?_⟩
      dsimp only
      rw [hb]
      exact hout

/-! ## The split -/

theorem completePath_eq_iff (sys : PathSystem M) (s : Str) : completePath sys.wd s = s ↔ s.head? = some slash := by
  have wd_absolute := sys.wd_absolute
  unfold completePath
  by_cases hs : s.head? = some slash
  · rw [if_pos hs]
    exact iff_of_true rfl hs
  · rw [if_neg hs]
    refine iff_of_false ?_ hs
    intro heq
    have hhead := congrArg List.head? heq
    cases hwd : sys.wd with
    | nil =>
      rw [hwd] at wd_absolute
      cases wd_absolute
    | cons c wd =>
      rw [hwd] at hhead wd_absolute
      exact hs (hhead.symm.trans wd_absolute)

theorem head_take (hp : 0 < p) : (path.take p).head? = path.head? := by
  obtain ⟨n, rfl⟩ : ∃ n, p = n + 1 := ⟨p - 1, by omega⟩
  cases path <;> rfl

variable {c : HttpConnection} {resource directory : Str} {yetmapped systemrequest : Bool} {permissions : Mask}
  {st : SecurityToken} {perms : FilePermissions} {host : Vhost}

theorem requestTarget_of_permissions (hmap : mapResource c resource yetmapped = .ok path)
    (hperms : getFilePermissions env sys.fs c resource yetmapped permissions st = .ok perms) :
    ∃ directory, requestTarget sys.fs c resource yetmapped = .ok (path, directory) := by
  obtain ⟨target, htarget, -⟩ := except_bind_eq_ok hperms
  obtain ⟨path', hpath, hrest⟩ := except_bind_eq_ok htarget
  obtain ⟨directory, -, heq⟩ := except_bind_eq_ok hrest
  cases hmap.symm.trans hpath
  cases heq
  exact ⟨directory, htarget⟩

/-- Below a plain file `stat` fails with `ENOTDIR`, and the permissions are not looked at. -/
theorem preprocess_not_directory (hmap : mapResource c resource yetmapped = .ok path)
    (hstat : sys.fs.stat (cstr path) = .error .other) :
    preprocessHttpRequest env sys c resource yetmapped permissions st systemrequest = .error 500 := by
  have htarget : requestTarget sys.fs c resource yetmapped = .error 500 := by
    have hdirectory : requestDirectory sys.fs path = .error 500 := by
      unfold requestDirectory isDirectory
      rw [hstat]
      rfl
    unfold requestTarget
    rw [hmap]
    change (requestDirectory sys.fs path).bind _ = _
    rw [hdirectory]
    rfl
  unfold preprocessHttpRequest getFilePermissions
  rw [htarget]
  rfl

/-- **PATH_INFO.** The path is split at the shortest prefix that is no directory exactly where no longer one is, too,
and the permissions can be looked at. -/
theorem pathInfo_iff (hhost : c.td.host = some host) (hroot : root = if systemrequest then host.systemRoot else host.documentRoot)
    (hmap : mapResource c resource yetmapped = .ok path) (hunder : root <+: path) (hloc : ∀ r, sys.locationMime r = none)
    (hp : Shortest sys path root.length p) :
    SplitAt (preprocessHttpRequest env sys c resource yetmapped permissions st systemrequest) path p ↔
      (∃ perms, getFilePermissions env sys.fs c resource yetmapped permissions st = .ok perms) ∧
        path.head? = some slash ∧ OnlyOne sys path root.length p := by
  by_cases hpermitted : ∃ perms, getFilePermissions env sys.fs c resource yetmapped permissions st = .ok perms
  swap
  · refine iff_of_false ?_ fun hcond => hpermitted hcond.1
    rintro ⟨perms, out, hout, -⟩
    obtain ⟨perms, hperms, -⟩ := except_bind_eq_ok hout
    exact hpermitted ⟨perms, hperms⟩
  rw [and_iff_right hpermitted]
  obtain ⟨perms, hperms⟩ := hpermitted
  obtain ⟨directory, htarget⟩ := requestTarget_of_permissions hmap hperms
  have hoffset : resOffset c systemrequest = root.length := by
    rw [resOffset, hhost, hroot]
    cases systemrequest <;> rfl
  have hlength := hunder.length_le
  have hcall : preprocessHttpRequest env sys c resource yetmapped permissions st systemrequest =
      (splitPathInfo sys path root.length).map fun split =>
        let filenamePath := completePath sys.wd split.1
        (perms, ⟨filenamePath, split.2.1, pathTranslated sys c split.2.1, split.2.2.or (sys.getMIME filenamePath)⟩) := by
    unfold preprocessHttpRequest
    rw [hperms, htarget, hoffset]
    rfl
  rw [hcall]
  constructor
  · rintro ⟨perms', out, hout, hname, hinfo, -⟩
    have hlt := (List.getElem?_eq_some_iff.mp hp.slash.2).1
    unfold splitPathInfo at hout
    cases hscan : scanPath sys path root.length (path.length + 1) root.length none with
    | none =>
      rw [hscan] at hout
      cases hout
    | some scanned =>
      obtain ⟨hall, r, rfl, hlast⟩ := scanPath_spec hloc le_rfl hlength (by simp) hscan
      rcases hlast with ⟨rfl, hothers⟩ | ⟨n, rfl, hn, hnot, hothers⟩
      · have hfalse := hothers p hp.slash
        rw [hp.isNot] at hfalse
        cases hfalse
      rw [hscan] at hout
      cases hout
      dsimp only at hname hinfo
      have hle : n ≤ p := by
        have hcount := congrArg List.length hinfo
        have hcstr : (cstr (path.drop n)).length ≤ (path.drop n).length := (List.takeWhile_sublist _).length_le
        simp only [List.length_drop] at hcount hcstr
        omega
      have hge : p ≤ n := by
        by_contra hlt'
        exact hp.first n hn (by omega) hnot
      obtain rfl := Nat.le_antisymm hle hge
      have hpos : 0 < n := Nat.lt_of_le_of_lt (Nat.zero_le _) hn.1
      refine ⟨?_, hn, hnot, ?_, ?_⟩
      · rw [← head_take hpos]
        exact (completePath_eq_iff sys _).mp hname
      · intro q hq hne
        rcases Nat.lt_or_ge q n with hbefore | hafter
        · obtain ⟨b, hb⟩ := hall q hq
          cases b with
          | true => exact absurd hb (hp.first q hq hbefore)
          | false => exact hb
        · exact hothers q ⟨by omega, hq.2⟩
      · rw [← hinfo]
        exact zero_notMem_cstr _
  · rintro ⟨habsolute, honly⟩
    have hall : ∀ q, SlashAt path root.length q → ∃ b, notDirectory sys.fs sys.enotdir (path.take q) = .ok b := by
      intro q hq
      by_cases heq : q = p
      · exact ⟨true, heq ▸ honly.isNot⟩
      · exact ⟨false, honly.others q hq heq⟩
    obtain ⟨scanned, hscan⟩ := @scanPath_some M sys path root.length (path.length + 1) root.length none hloc le_rfl hlength
      (by simp) (by omega) (Nat.succ_pos _) hall
    obtain ⟨-, r, rfl, hlast⟩ := scanPath_spec hloc le_rfl hlength (by simp) hscan
    have hr : r = some p := by
      rcases hlast with ⟨-, hothers⟩ | ⟨n, hr, hn, hnot, -⟩
      · have hfalse := hothers p honly.slash
        rw [honly.isNot] at hfalse
        cases hfalse
      · rw [hr]
        by_contra hne
        have hfalse := honly.others n hn fun heq => hne (congrArg some heq)
        rw [hnot] at hfalse
        cases hfalse
    subst hr
    have hpos : 0 < p := Nat.lt_of_le_of_lt (Nat.zero_le _) honly.slash.1
    have hname : completePath sys.wd (path.take p) = path.take p := by
      rw [completePath_eq_iff, head_take hpos, habsolute]
    refine ⟨perms, _, by rw [splitPathInfo, hscan]; rfl, hname, cstr_of_notMem honly.text, ?_⟩
    dsimp only
    rw [hname, cstr_of_notMem honly.text, List.take_append_drop]

end

/-! ## Splits -/

/-- There is nothing in the root. -/
def emptyRoot : PathSystem Str where
  fs := ⟨fun path => if path = ascii "/srv/www" then .ok .directory else .error .fileNotFound, fun _ => .error .fileNotFound⟩
  enotdir _ := false
  wd := ascii "/"
  wd_absolute := rfl
  locationMime _ := none
  getMIME _ := none

theorem pathInfo_missing : SplitAt (preprocessHttpRequest (Ftp.plainEnv deniedReader) emptyRoot alicesConnection
    (ascii "/srv/www/a/b") true 0 (newHttpToken ⟨false, 0⟩) false) (ascii "/srv/www/a/b") 10 := by
  have honly : ∀ q, SlashAt (ascii "/srv/www/a/b") 8 q → q = 10 := by
    rintro q ⟨hlt, hread⟩
    have hle := (List.getElem?_eq_some_iff.mp hread).1
    change q < 12 at hle
    interval_cases q
    · exact absurd hread (by decide)
    · rfl
    · exact absurd hread (by decide)
  have hp : Shortest emptyRoot (ascii "/srv/www/a/b") 8 10 :=
    ⟨⟨by decide, rfl⟩, rfl, fun q hq hlt => absurd (honly q hq) (by omega)⟩
  have hiff := @pathInfo_iff Str (Ftp.plainEnv deniedReader) emptyRoot (ascii "/srv/www/a/b") (ascii "/srv/www") 10
    alicesConnection (ascii "/srv/www/a/b") true false 0 (newHttpToken ⟨false, 0⟩) _ rfl rfl rfl (by decide) (fun _ => rfl) hp
  exact hiff.mpr ⟨⟨⟨permissionRead, _, .basic⟩, rfl⟩, rfl, hp.slash, rfl, fun q hq hne => absurd (honly q hq) hne, by decide⟩

/-- There is one plain file in the root. -/
def oneFile : PathSystem Str where
  fs := ⟨fun path => if path = ascii "/srv/www/a" then .ok .file
      else if ascii "/srv/www/a/" <+: path then .error .other else .ok .directory, fun _ => .error .other⟩
  enotdir path := ascii "/srv/www/a/" <+: path
  wd := ascii "/"
  wd_absolute := rfl
  locationMime _ := none
  getMIME _ := none

/-- A name below a plain file is not split from it. -/
theorem file_not_split : ¬∀ (env : SecurityEnv) (sys : PathSystem Str) (c : HttpConnection) (host : Vhost)
    (resource path root : Str) (yetmapped systemrequest : Bool) (permissions : Mask) (st : SecurityToken),
    c.td.host = some host → root = (if systemrequest then host.systemRoot else host.documentRoot) →
    mapResource c resource yetmapped = .ok path → root <+: path → (∀ r, sys.locationMime r = none) →
    ∀ p, Shortest sys path root.length p →
      SplitAt (preprocessHttpRequest env sys c resource yetmapped permissions st systemrequest) path p := by
  intro h
  have hp : Shortest oneFile (ascii "/srv/www/a/b") 8 10 := by
    refine ⟨⟨by decide, rfl⟩, rfl, ?_⟩
    rintro q ⟨hlt, hread⟩ hq
    interval_cases q
    exact absurd hread (by decide)
  obtain ⟨perms, out, hout, -⟩ := h (Ftp.plainEnv deniedReader) oneFile alicesConnection _ (ascii "/srv/www/a/b")
    (ascii "/srv/www/a/b") (ascii "/srv/www") true false 0 (newHttpToken ⟨false, 0⟩) rfl rfl rfl (by decide) (fun _ => rfl) 10 hp
  rw [preprocess_not_directory rfl rfl] at hout
  cases hout

end MyServer.Http
