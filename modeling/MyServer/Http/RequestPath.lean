import MyServer.Files.Path

/-!
# From a request URI to a file name

The part of `Http::getFilePermissions` that maps a resource which is not mapped
yet, with `Http::getPath` under it.
-/

open MyServer.Walk MyServer.Files

namespace MyServer.Http

/-! ## Escapes -/

def hexVal (c : Byte) : Nat :=
  if ch '0' ≤ c ∧ c ≤ ch '9' then (c - ch '0').toNat
  else if ch 'a' ≤ c ∧ c ≤ ch 'f' then (c - ch 'a').toNat + 10
  else if ch 'A' ≤ c ∧ c ≤ ch 'F' then (c - ch 'A').toNat + 10
  else 0

/-- The loop copies over the string that it reads, so the text ends where a NUL is copied. -/
def translateEscapeString : Str → Str
  | [] => []
  | c :: a :: b :: rest =>
    if c = ch '%' ∧ a ≠ 0 ∧ b ≠ 0 then
      UInt8.ofNat (16 * hexVal a + hexVal b) :: translateEscapeString rest
    else c :: translateEscapeString (a :: b :: rest)
  | c :: rest => c :: translateEscapeString rest

/-! ## The mapping -/

structure Vhost where
  documentRoot : Str
  systemRoot : Str

structure HttpThreadContext where
  vhostDir : Str
  vhostSys : Str
  /-- `connection->host`, or `none` where either pointer is NULL. -/
  host : Option Vhost

def getVhostDir (td : HttpThreadContext) : Str :=
  if 1 < td.vhostDir.length then cstr td.vhostDir
  else match td.host with
    | some host => cstr host.documentRoot
    | none => []

def getVhostSys (td : HttpThreadContext) : Str :=
  if 1 < td.vhostSys.length then cstr td.vhostSys
  else match td.host with
    | some host => cstr host.systemRoot
    | none => []

/-- `if (filename[0] != '/') filenamePath.append ("/"); filenamePath.append (filename);` -/
def appendName (filenamePath filename : Str) : Str :=
  filenamePath ++ (if filename.head? = some slash then [] else [slash]) ++ filename

def isSysUri (filename : Str) : Bool := (ascii "/sys/").isPrefixOf filename

/-- `Http::getPath`. An error is the HTTP code, a result is the new `filenamePath`. -/
def getPath (td : HttpThreadContext) (filenamePath filename : Str) (systemrequest : Bool) :
    Except Nat Str :=
  if systemrequest then
    if getVhostSys td = [] ∨ getPathRecursionLevel filename < 2 then .error 401
    else .ok (appendName (getVhostSys td) filename)
  else if filename = [] then .ok (filenamePath ++ getVhostDir td)
  else if isSysUri filename then
    if getPathRecursionLevel filename < 2 then .error 401
    else .ok (appendName (getVhostSys td) (filename.drop 5))
  else .ok (appendName (getVhostDir td) filename)

/-- The resource as a C string, once its escapes are translated. -/
def decoded (resource : Str) : Str := cstr (translateEscapeString resource)

/-- `Http::getFilePermissions` with `yetmapped` false, up to the file name that it looks at.
`controlConnection` leaves `filenamePath` empty. -/
def requestPath (td : HttpThreadContext) (resource : Str) : Except Nat Str :=
  if decoded resource ≠ [] ∧ getPathRecursionLevel (decoded resource) < 1 then .error 401
  else getPath td [] (decoded resource) false

/-! ## What the mapping appends -/

def rootOf (td : HttpThreadContext) (resource : Str) : Str :=
  if isSysUri resource then getVhostSys td else getVhostDir td

/-- The resource without the `/sys` that only selects the root. -/
def belowSys (resource : Str) : Str := if isSysUri resource then resource.drop 5 else resource

def appendedPart (resource : Str) : Str :=
  if resource = [] then []
  else (if (belowSys resource).head? = some slash then [] else [slash]) ++ belowSys resource

def Refused (resource : Str) : Prop :=
  resource ≠ [] ∧ (getPathRecursionLevel resource < 1 ∨
    (isSysUri resource ∧ getPathRecursionLevel resource < 2))

theorem requestPath_eq (td : HttpThreadContext) (resource : Str) :
    (Refused (decoded resource) ∧ requestPath td resource = .error 401) ∨
    (¬ Refused (decoded resource) ∧ requestPath td resource =
      .ok (rootOf td (decoded resource) ++ appendedPart (decoded resource))) := by
  unfold requestPath
  generalize decoded resource = name
  by_cases hnil : name = []
  · right
    subst hnil
    refine ⟨fun h => h.1 rfl, ?_⟩
    simp [getPath, rootOf, appendedPart, isSysUri, ascii]
  by_cases hlevel : getPathRecursionLevel name < 1
  · left
    exact ⟨⟨hnil, Or.inl hlevel⟩, if_pos ⟨hnil, hlevel⟩⟩
  rw [if_neg (fun h => hlevel h.2), getPath, if_neg (by simp), if_neg hnil]
  cases hsys : isSysUri name with
  | false =>
    right
    refine ⟨?_, by simp [rootOf, appendedPart, appendName, belowSys, hsys, hnil]⟩
    rintro ⟨-, h | ⟨h, -⟩⟩
    · exact hlevel h
    · simp [hsys] at h
  | true =>
    by_cases htwo : getPathRecursionLevel name < 2
    · left
      exact ⟨⟨hnil, Or.inr ⟨hsys, htwo⟩⟩, by simp [htwo]⟩
    · right
      refine ⟨?_, by simp [rootOf, appendedPart, appendName, belowSys, hsys, hnil, htwo]⟩
      rintro ⟨-, h | ⟨-, h⟩⟩
      · exact hlevel h
      · exact htwo h

theorem confined_appendedPart (resource : Str) :
    Confined (moves isSlash (appendedPart resource)) ↔ NeverOutnumbered (belowSys resource) := by
  rw [NeverOutnumbered, ← confined_iff_count, appendedPart]
  split_ifs with hnil hslash
  · simp [hnil, belowSys, isSysUri, ascii]
  · rfl
  · exact confined_slash_cons _

theorem appendedPart_head (resource : Str) :
    appendedPart resource = [] ∨ (appendedPart resource).head? = some slash := by
  unfold appendedPart
  split_ifs with hnil hslash
  · exact Or.inl rfl
  · exact Or.inr hslash
  · exact Or.inr rfl

/-- **Document root confinement.** An accepted resource maps below its root exactly
when the walk that it spells never climbs above it. -/
theorem requestPath_below_root_iff (td : HttpThreadContext) (resource : Str) :
    (∀ path, requestPath td resource = .ok path → BelowRoot (rootOf td (decoded resource)) path) ↔
      Refused (decoded resource) ∨ NeverOutnumbered (belowSys (decoded resource)) := by
  rw [← confined_appendedPart, ← belowRoot_append_iff _ _ (appendedPart_head (decoded resource))]
  rcases requestPath_eq td resource with ⟨href, heq⟩ | ⟨href, heq⟩
  · simp [heq, href]
  · simp only [heq, href, false_or, Except.ok.injEq]
    exact ⟨fun h => h _ rfl, fun h path hp => hp ▸ h⟩

/-- The net level of `/../etc/passwd` is 1, and it names a file beside the root. -/
theorem requestPath_escapes :
    ¬ ∀ (td : HttpThreadContext) (resource path : Str), requestPath td resource = .ok path →
      BelowRoot (rootOf td (decoded resource)) path := by
  intro h
  have hb := h ⟨[], [], some ⟨ascii "/srv/www", ascii "/srv/sys"⟩⟩ (ascii "/../etc/passwd")
    (ascii "/srv/www/../etc/passwd") (by decide)
  have heq : ascii "/srv/www/../etc/passwd" = ascii "/srv/www" ++ ascii "/../etc/passwd" := by decide
  have hroot : rootOf ⟨[], [], some ⟨ascii "/srv/www", ascii "/srv/sys"⟩⟩
      (decoded (ascii "/../etc/passwd")) = ascii "/srv/www" := by decide
  rw [hroot, heq, belowRoot_append_iff _ _ (by decide)] at hb
  exact absurd (hb 2) (by decide)

end MyServer.Http
