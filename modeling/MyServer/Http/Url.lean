import MyServer.Http.PathInfo
import MyServer.Http.ResponseHeader

/-!
# URLs

`Url::parse` (url.cpp), and the texts that it is made for.
-/

open MyServer.Http (findFrom findFrom_none findFrom_some)
open MyServer.ResponseHeader (atoi)

namespace MyServer.Urls

/-! ## The parser -/

def separator : Str := ascii "://"

/-- `url.find (text)`. -/
def findText (text : Str) : Str → Option Nat
  | [] => if text = [] then some 0 else none
  | c :: url => if text <+: c :: url then some 0 else (findText text url).map (· + 1)

/-- `url.substr (pos, last - pos)`. Where that count is below 0 or `last` is `npos`, it is more than there
is. -/
def cut (url : Str) (pos : Nat) : Option Nat → Str
  | none => url.drop pos
  | some last => if last < pos then url.drop pos else (url.drop pos).take (last - pos)

/-- `loc + 1`, which is 0 for `npos`. -/
def next : Option Nat → Nat
  | none => 0
  | some loc => loc + 1

/-- The text as an `u_short`. -/
def toPort (text : Str) : UInt16 := UInt16.ofBitVec (BitVec.ofInt 16 (atoi text))

structure Url where
  protocol : Str
  credentials : Str
  host : Str
  port : UInt16
  resource : Str
  query : Str
deriving DecidableEq

/-- `none` leaves the members as they are. -/
def parse (url : Str) (defPort : UInt16) : Option Url :=
  match findText separator url with
  | none => none
  | some protoEnd =>
    let portLoc := findFrom url (ch ':') (protoEnd + 3)
    let firstSlash := findFrom url (ch '/') (portLoc.elim (protoEnd + 3) (· + 1))
    let credentialStart := findFrom url (ch '@') (protoEnd + 3)
    let offsetCredentials := credentialStart.elim (protoEnd + 3) (· + 1)
    let queryStart := findFrom url (ch '?') (next firstSlash)
    some {
      protocol := url.take protoEnd
      credentials := credentialStart.elim [] fun loc => cut url (protoEnd + 3) (some loc)
      host := portLoc.elim (cut url offsetCredentials firstSlash) fun loc => cut url offsetCredentials (some loc)
      port := portLoc.elim defPort fun loc => toPort (cut url (loc + 1) firstSlash)
      resource := cut url (next firstSlash) queryStart
      query := queryStart.elim [] fun loc => url.drop (loc + 1) }

/-! ## What is rendered -/

/-- The parts of a URL. -/
structure Parts where
  protocol : Str
  credentials : Option (Str × Str)
  host : Str
  port : Option UInt16
  resource : Option Str
  query : Option Str
  host_colon : ch ':' ∉ host
  host_slash : ch '/' ∉ host
  host_at : ch '@' ∉ host

namespace Parts

def credentialsText (parts : Parts) : Str := parts.credentials.elim [] fun c => c.1 ++ ch ':' :: c.2

def credentialsPart (parts : Parts) : Str := parts.credentials.elim [] fun c => c.1 ++ ch ':' :: c.2 ++ [ch '@']

def portPart (parts : Parts) : Str := parts.port.elim [] fun port => ch ':' :: decimal port.toNat

def resourcePart (parts : Parts) : Str := parts.resource.elim [] (ch '/' :: ·)

def queryPart (parts : Parts) : Str := parts.query.elim [] (ch '?' :: ·)

/-- What comes behind the host. -/
def tail (parts : Parts) : Str := parts.portPart ++ (parts.resourcePart ++ parts.queryPart)

/-- What comes behind the separator. -/
def rest (parts : Parts) : Str := parts.credentialsPart ++ (parts.host ++ parts.tail)

/-- `protocol://[credentials@]host[:port][/resource][?query]`. -/
def render (parts : Parts) : Str := parts.protocol ++ separator ++ parts.rest

/-- What is to be found of them. -/
def url (parts : Parts) (defPort : UInt16) : Url where
  protocol := parts.protocol
  credentials := parts.credentialsText
  host := parts.host
  port := parts.port.getD defPort
  resource := parts.resource.getD []
  query := parts.query.getD []

/-- Nothing looks like the end of another part. -/
structure Plain (parts : Parts) : Prop where
  protocol : ¬separator <:+: parts.protocol
  credentials : parts.credentials = none
  resource : ∃ resource, parts.resource = some resource ∧ ch '?' ∉ resource
  ats : ch '@' ∉ parts.resource.getD [] ∧ ch '@' ∉ parts.query.getD []
  colons : parts.port = none → ch ':' ∉ parts.resource.getD [] ∧ ch ':' ∉ parts.query.getD []

end Parts

/-! ## Places behind the separator -/

section

variable {c : Byte} {a b front url : Str} {n k : Nat}

theorem findFrom_append (h : c ∉ a.drop n) (hn : n ≤ a.length) : findFrom (a ++ c :: b) c n = some a.length := by
  have hdrop : (a ++ c :: b).drop n = a.drop n ++ c :: b := List.drop_append_of_le_length hn
  have hfirst : (a.drop n ++ c :: b).findIdx? (fun x => x = c) = some (a.drop n).length := by
    rw [List.findIdx?_append, List.findIdx?_eq_none_iff.mpr]
    · simp [List.findIdx?_cons]
    · intro x hx
      simp only [decide_eq_false_iff_not]
      rintro rfl
      exact h hx
  unfold findFrom
  rw [hdrop, hfirst, Option.map_some, List.length_drop]
  congr 1
  omega

theorem findFrom_of_drop {r : Str} (hdrop : r.drop n = a ++ c :: b) (h : c ∉ a) :
    findFrom r c n = some (n + a.length) := by
  have hfirst := @findFrom_append c a b 0 (by rwa [List.drop_zero]) (Nat.zero_le _)
  unfold findFrom at hfirst ⊢
  rw [List.drop_zero] at hfirst
  obtain ⟨i, hi, hsum⟩ := Option.map_eq_some_iff.mp hfirst
  rw [hdrop, hi, Option.map_some]
  congr 1
  omega

theorem findFrom_notMem (h : c ∉ url.drop n) : findFrom url c n = none := by
  unfold findFrom
  rw [Option.map_eq_none_iff, List.findIdx?_eq_none_iff]
  intro x hx
  simp only [decide_eq_false_iff_not]
  rintro rfl
  exact h hx

theorem findFrom_front : findFrom (front ++ url) c (front.length + k) = (findFrom url c k).map (front.length + ·) := by
  unfold findFrom
  rw [← List.drop_drop, List.drop_left, Option.map_map]
  congr 1
  funext i
  simp only [Function.comp_apply]
  omega

theorem cut_front (last : Option Nat) : cut (front ++ url) (front.length + k) (last.map (front.length + ·)) =
    cut url k last := by
  have hdrop : (front ++ url).drop (front.length + k) = url.drop k := by rw [← List.drop_drop, List.drop_left]
  cases last with
  | none => exact hdrop
  | some last =>
    unfold cut
    simp only [Option.map_some, hdrop, Nat.add_lt_add_iff_left, Nat.add_sub_add_left]

theorem findText_first {p r : Str} (h : ¬separator <:+: p) : findText separator (p ++ separator ++ r) = some p.length := by
  induction p with
  | nil =>
    have hprefix : separator <+: separator ++ r := List.prefix_append _ _
    exact if_pos hprefix
  | cons x p ih =>
    have hhead : ¬separator <+: x :: p ++ separator ++ r := by
      intro hprefix
      apply h
      -- It would have to run into the separator that is there.
      match p, hprefix with
      | [], hprefix => exact absurd (List.cons_prefix_cons.mp (List.cons_prefix_cons.mp hprefix).2).1 (by decide)
      | [y], hprefix =>
        exact absurd (List.cons_prefix_cons.mp (List.cons_prefix_cons.mp (List.cons_prefix_cons.mp hprefix).2).2).1
          (by decide)
      | y :: z :: p, hprefix =>
        obtain ⟨hx, hprefix⟩ := List.cons_prefix_cons.mp hprefix
        obtain ⟨hy, hprefix⟩ := List.cons_prefix_cons.mp hprefix
        obtain ⟨hz, -⟩ := List.cons_prefix_cons.mp hprefix
        rw [← hx, ← hy, ← hz]
        exact ⟨[], p, rfl⟩
    have htail : ¬separator <:+: p := fun hin => h (hin.trans (List.suffix_cons x p).isInfix)
    have hshape : x :: p ++ separator ++ r = x :: (p ++ separator ++ r) := rfl
    rw [hshape] at hhead ⊢
    rw [findText, if_neg hhead, ih htail]
    rfl

theorem findText_inside {p r : Str} (h : separator <:+: p) :
    ∃ i, findText separator (p ++ r) = some i ∧ i < p.length := by
  induction p with
  | nil => exact absurd (List.infix_nil.mp h) (by decide)
  | cons x p ih =>
    rw [List.cons_append, findText]
    split_ifs with hprefix
    · exact ⟨0, rfl, Nat.succ_pos _⟩
    · rcases List.infix_cons_iff.mp h with hhere | hlater
      · exact absurd (hhere.trans (List.prefix_append (x :: p) r)) hprefix
      · obtain ⟨i, hi, hlt⟩ := ih hlater
        exact ⟨i + 1, by rw [hi]; rfl, Nat.succ_lt_succ hlt⟩

/-- What is found in the text behind the separator. Without a slash the whole URL is searched again. -/
structure Found (r : Str) (defPort : UInt16) (u : Url) : Prop where
  credentials : u.credentials = (findFrom r (ch '@') 0).elim [] fun loc => cut r 0 (some loc)
  host : u.host = (findFrom r (ch ':') 0).elim
    (cut r (next (findFrom r (ch '@') 0)) (findFrom r (ch '/') (next (findFrom r (ch ':') 0))))
    fun loc => cut r (next (findFrom r (ch '@') 0)) (some loc)
  port : u.port = (findFrom r (ch ':') 0).elim defPort
    fun loc => toPort (cut r (loc + 1) (findFrom r (ch '/') (next (findFrom r (ch ':') 0))))
  slash : ∀ s, findFrom r (ch '/') (next (findFrom r (ch ':') 0)) = some s →
    u.resource = cut r (s + 1) (findFrom r (ch '?') (s + 1)) ∧
      u.query = (findFrom r (ch '?') (s + 1)).elim [] fun loc => r.drop (loc + 1)
  without : findFrom r (ch '/') (next (findFrom r (ch ':') 0)) = none → u.resource = [] → r.length < u.query.length

theorem parse_front {p r : Str} (h : ¬separator <:+: p) (defPort : UInt16) :
    ∃ u, parse (p ++ separator ++ r) defPort = some u ∧ u.protocol = p ∧ Found r defPort u := by
  obtain ⟨front, hfront⟩ : ∃ front, p ++ separator = front := ⟨_, rfl⟩
  have hlength : p.length + 3 = front.length := by
    have hseparator : separator.length = 3 := by decide
    rw [← hfront, List.length_append, hseparator]
  have hplace : ∀ c k, findFrom (front ++ r) c (front.length + k) = (findFrom r c k).map (front.length + ·) :=
    fun c k => findFrom_front
  have hstart : ∀ c, findFrom (front ++ r) c front.length = (findFrom r c 0).map (front.length + ·) :=
    fun c => hplace c 0
  have hnext : ∀ loc : Option Nat, (loc.map (front.length + ·)).elim front.length (· + 1) =
      front.length + next loc := by
    intro loc
    cases loc <;> rfl
  have hcut : ∀ k loc, cut (front ++ r) (front.length + k) (some (front.length + loc)) = cut r k (some loc) :=
    fun k loc => cut_front (some loc)
  have hprotocol : (front ++ r).take p.length = p := by
    rw [← hfront, List.append_assoc, List.take_left]
  unfold parse
  rw [findText_first h]
  dsimp only
  rw [hfront, hlength, hstart, hstart, hnext, hnext, hplace]
  refine ⟨_, rfl, hprotocol, ?_, ?_, ?_, ?_, ?_⟩
  · cases findFrom r (ch '@') 0 with
    | none => rfl
    | some loc => exact hcut 0 loc
  · cases findFrom r (ch ':') 0 with
    | none => exact cut_front _
    | some loc => exact hcut _ loc
  · cases findFrom r (ch ':') 0 with
    | none =>
      change defPort = defPort
      rfl
    | some loc =>
      have htext := @cut_front front r (loc + 1) (findFrom r (ch '/') (loc + 1))
      exact congrArg toPort htext
  · intro s hs
    have hbehind : next ((some s).map (front.length + ·)) = front.length + (s + 1) := rfl
    simp only [hs, hbehind, hplace]
    refine ⟨cut_front _, ?_⟩
    cases findFrom r (ch '?') (s + 1) with
    | none => rfl
    | some loc =>
      change (front ++ r).drop (front.length + loc + 1) = r.drop (loc + 1)
      rw [Nat.add_assoc, ← List.drop_drop, List.drop_left]
  · intro hnone
    have hbehind : next (Option.map (front.length + ·) none) = 0 := rfl
    simp only [hnone, hbehind]
    have hlong : r.length + 3 ≤ (front ++ r).length := by
      rw [List.length_append]
      omega
    cases hquery : findFrom (front ++ r) (ch '?') 0 with
    | none =>
      intro hempty
      have hzero : (front ++ r).length = 0 := congrArg List.length hempty
      omega
    | some q =>
      intro hempty
      have htake : ((front ++ r).take q).length = 0 := congrArg List.length hempty
      rw [List.length_take] at htake
      change r.length < ((front ++ r).drop (q + 1)).length
      rw [List.length_drop]
      omega

end

end MyServer.Urls
