import MyServer.Bytes
import MyServer.Lib.OrdMap
import MyServer.Lib.Safety

/-!
# The process servers (process_server_manager.cpp)

The servers stand in vectors by the name of their domain and by their own name, and a server is an address. A process
may end at any time, and is missed at the next `getServer`. A `HashMap` is a finite map here.
-/

open Std

namespace MyServer.ProcessServers

abbrev ServerId := Nat

def LOCALHOST_ADDRESS : Str := ascii "127.0.0.1"

structure Server where
  path : Str
  host : Str
  port : UInt16
  isLocal : Bool
  /-- `process.isProcessAlive ()`. -/
  alive : Bool

/-- `servers` of each domain. -/
abbrev Domains := OrdMap Str (OrdMap Str (List ServerId))

structure Manager where
  maxServers : Int
  nServers : Int
  /-- A call waits for the mutex that it has itself. -/
  stuck : Bool
  domains : Domains
  heap : ServerId → Option Server
  next : ServerId
  /-- What the last call gave. -/
  returned : Option ServerId

/-- What the system makes of a process that is to be started, with the port that it listens on. -/
inductive Launch
  | started (port : UInt16)
  | failed
  | threw

inductive Ran
  | ok
  | error
  | threw

inductive Op
  | createDomain (name : Str)
  | runAndAddServer (domain path : Str) (port : UInt16) (launch : Launch)
  | addRemoteServer (domain name host : Str) (port : UInt16)
  | getServer (domain name : Str) (seed : Int) (launch : Launch)
  | removeDomain (domain : Str)
  | clear
  | died (server : ServerId)

def Op.isCall : Op → Bool
  | .died _ => false
  | _ => true

namespace Manager

variable (s : Manager)

def new (maxServers : Int) : Manager := ⟨maxServers, 0, false, ∅, fun _ => none, 0, none⟩

def setServer (id : ServerId) (server : Option Server) : Manager := { s with heap := Function.update s.heap id server }

def createDomain (name : Str) : Manager :=
  if name ∈ s.domains then s else { s with domains := s.domains.insert name ∅ }

def addServer (id : ServerId) (domain name : Str) : Manager :=
  let s := s.createDomain domain
  let servers := s.domains.getD domain ∅
  { s with domains := s.domains.insert domain (servers.insert name (servers.getD name [] ++ [id])) }

/-- The new server is added and returned. -/
def enter (server : Server) (domain name : Str) : Manager :=
  { ({ s with next := s.next + 1 }.setServer s.next (some server)).addServer s.next domain name with
    returned := some s.next }

/-- What it makes of the server. -/
def runServer (server : Server) (path : Str) (port : UInt16) (launch : Launch) : Server × Ran :=
  let server := { server with host := LOCALHOST_ADDRESS, isLocal := true }
  if s.nServers ≥ s.maxServers then (server, .error)
  else
    let server := { server with port := port, path := path }
    match launch with
    | .started port => ({ server with port := port, alive := true }, .ok)
    | .failed => (server, .error)
    | .threw => (server, .threw)

def runAndAddServer (domain path : Str) (port : UInt16) (launch : Launch) : Manager :=
  match s.runServer ⟨[], [], 0, false, false⟩ path port launch with
  | (server, .ok) => s.enter server domain path
  | (_, .error) => { s with next := s.next + 1, returned := none }
  | (server, .threw) => { { s with next := s.next + 1 }.setServer s.next (some server) with returned := none }

def addRemoteServer (domain name host : Str) (port : UInt16) : Manager :=
  s.enter ⟨name, host, port, false, false⟩ domain name

/-- `slist->at (seed % slist->size ())`, the seed as a `size_t`. -/
def choose (slist : List ServerId) (seed : Int) : Option ServerId :=
  slist[(seed % 2 ^ 64).toNat % slist.length]?

/-- A server that is found dead is started again where it stands. -/
def restart (domain name : Str) (servers : OrdMap Str (List ServerId)) (id : ServerId) (server : Server)
    (launch : Launch) : Manager :=
  let server := { server with path := if server.path = [] then name else server.path, port := 0 }
  match s.runServer server server.path server.port launch with
  | (server, .ok) => { s.setServer id (some server) with returned := some id }
  | (_, .error) =>
    { s.setServer id none with domains := s.domains.insert domain (servers.erase name), returned := none }
  | (server, .threw) => { s.setServer id (some server) with returned := none }

def getServer (domain name : Str) (seed : Int) (launch : Launch) : Manager :=
  match s.domains[domain]? with
  | none => { s with returned := none }
  | some servers =>
    match servers[name]?.bind (choose · seed) with
    | none => { s with returned := none }
    | some id =>
      match s.heap id with
      | some ⟨path, host, port, true, false⟩ => s.restart domain name servers id ⟨path, host, port, true, false⟩ launch
      | _ => { s with returned := some id }

/-- All vectors. -/
def servers : List ServerId := s.domains.toList.flatMap fun domain => domain.2.toList.flatMap Prod.snd

def isLocal (id : ServerId) : Bool := (s.heap id).any Server.isLocal

def clear : Manager :=
  { s with
    nServers := s.nServers - s.servers.countP s.isLocal
    domains := ∅
    heap := fun id => if id ∈ s.servers then none else s.heap id
    returned := none }

/-- `getDomain` waits for the mutex that `removeDomain` holds. -/
def removeDomain : Manager := { s with stuck := true, returned := none }

def died (id : ServerId) : Manager := s.setServer id ((s.heap id).map fun server => { server with alive := false })

def perform : Op → Manager
  | .createDomain name => s.createDomain name
  | .runAndAddServer domain path port launch => s.runAndAddServer domain path port launch
  | .addRemoteServer domain name host port => s.addRemoteServer domain name host port
  | .getServer domain name seed launch => s.getServer domain name seed launch
  | .removeDomain _ => s.removeDomain
  | .clear => s.clear
  | .died id => s.died id

/-- Every call takes the mutex. -/
def step (op : Op) : Option Manager := if s.stuck && op.isCall then none else some (s.perform op)

/-- The servers of a name. -/
def slist (domain name : Str) : List ServerId := (s.domains.getD domain ∅).getD name []

def runs (id : ServerId) : Bool := (s.heap id).any fun server => server.isLocal && server.alive

/-- The number is that of the processes and no larger than it may be, and no server is held or given that was freed. -/
structure Sound : Prop where
  counted : s.nServers = s.servers.countP s.runs
  bounded : s.nServers ≤ s.maxServers
  held : ∀ id ∈ s.servers, s.heap id ≠ none
  given : ∀ id, s.returned = some id → s.heap id ≠ none

/-- `getServer` takes no server out that it does not free. -/
def KeepsOthers (s' : Manager) : Op → Prop
  | .getServer .. => ∀ domain name, ∀ id ∈ s.slist domain name, s'.heap id ≠ none → id ∈ s'.slist domain name
  | _ => True

/-- What a call should leave. -/
def Manages (s : Manager) (op : Op) : Prop := ∀ s', s.step op = some s' → s'.Sound ∧ s.KeepsOthers s' op

/-- `runAndAddServer` starts a process. -/
def Starts (s : Manager) : Op → Prop
  | .runAndAddServer _ _ _ (.started _) => s.stuck = false ∧ s.nServers < s.maxServers
  | _ => False

/-! ## What stands where -/

variable {s} {s' : Manager} {domain name d n : Str} {id id' : ServerId} {server : Server} {launch : Launch}

theorem mem_slist : id ∈ s.slist domain name ↔
    ∃ servers slist, s.domains[domain]? = some servers ∧ servers[name]? = some slist ∧ id ∈ slist := by
  unfold slist
  rw [ExtTreeMap.getD_eq_getD_getElem?, ExtTreeMap.getD_eq_getD_getElem?]
  cases s.domains[domain]? with
  | none => simp
  | some servers => cases hname : servers[name]? <;> simp [hname]

theorem mem_servers : id ∈ s.servers ↔ ∃ domain name, id ∈ s.slist domain name := by
  unfold servers
  simp only [List.mem_flatMap, Prod.exists, ExtTreeMap.mem_toList_iff_getElem?_eq_some, mem_slist]
  constructor
  · rintro ⟨domain, servers, hdomain, name, slist, hname, hid⟩
    exact ⟨domain, name, servers, slist, hdomain, hname, hid⟩
  · rintro ⟨domain, name, servers, slist, hdomain, hname, hid⟩
    exact ⟨domain, servers, hdomain, name, slist, hname, hid⟩

@[simp] theorem createDomain_heap : (s.createDomain domain).heap = s.heap := by
  unfold createDomain
  split_ifs <;> rfl

@[simp] theorem slist_createDomain : (s.createDomain domain).slist d n = s.slist d n := by
  unfold createDomain slist
  split_ifs with hdomain
  · rfl
  · rw [OrdMap.getD_put]
    split_ifs with hd
    · rw [← hd, @ExtTreeMap.getD_eq_getD_getElem? _ _ _ s.domains _ domain, ExtTreeMap.getElem?_eq_none hdomain]
      rfl
    · rfl

@[simp] theorem addServer_heap : (s.addServer id domain name).heap = s.heap := createDomain_heap

theorem slist_addServer : (s.addServer id domain name).slist d n =
    if domain = d ∧ name = n then s.slist domain name ++ [id] else s.slist d n := by
  have hcreated : ∀ n, ((s.createDomain domain).domains.getD domain ∅).getD n [] = s.slist domain n :=
    fun n => slist_createDomain
  unfold addServer
  dsimp only
  conv_lhs => unfold slist
  rw [OrdMap.getD_put, hcreated]
  by_cases hd : domain = d
  · subst hd
    rw [if_pos rfl, OrdMap.getD_put, hcreated]
    simp
  · rw [if_neg hd, if_neg fun h => hd h.1]
    exact slist_createDomain

/-! ## Every run -/

/-- What holds in every run: each address stands in one vector at most, and what stands there is alive. -/
structure Inv (s : Manager) : Prop where
  held : ∀ d n, ∀ id ∈ s.slist d n, s.heap id ≠ none
  unique : ∀ d n d' n' id, id ∈ s.slist d n → id ∈ s.slist d' n' → d = d' ∧ n = n'
  fresh : ∀ id ≥ s.next, s.heap id = none
  given : ∀ id, s.returned = some id → s.heap id ≠ none
  count : s.nServers ≤ 0

theorem slist_enter : (s.enter server domain name).slist d n =
    if domain = d ∧ name = n then s.slist domain name ++ [s.next] else s.slist d n := slist_addServer

theorem enter_heap : (s.enter server domain name).heap = Function.update s.heap s.next (some server) :=
  @addServer_heap _ domain name s.next

theorem enter_rest : (s.enter server domain name).next = s.next + 1 ∧
    (s.enter server domain name).nServers = s.nServers ∧ (s.enter server domain name).maxServers = s.maxServers ∧
      (s.enter server domain name).stuck = s.stuck := by
  unfold enter addServer createDomain
  dsimp only
  split_ifs <;> exact ⟨rfl, rfl, rfl, rfl⟩

theorem mem_slist_enter (h : id ∈ (s.enter server domain name).slist d n) :
    id ∈ s.slist d n ∨ id = s.next ∧ domain = d ∧ name = n := by
  rw [slist_enter] at h
  split_ifs at h with hplace
  · obtain ⟨rfl, rfl⟩ := hplace
    rcases List.mem_append.mp h with h | h
    · exact Or.inl h
    · exact Or.inr ⟨List.mem_singleton.mp h, rfl, rfl⟩
  · exact Or.inl h

theorem Inv.ne_next (h : Inv s) (hid : id ∈ s.slist d n) : id ≠ s.next := by
  rintro rfl
  exact h.held d n _ hid (h.fresh _ le_rfl)

theorem Inv.enter (h : Inv s) : Inv (s.enter server domain name) := by
  obtain ⟨hnext, hcount, -⟩ := @enter_rest s domain name server
  refine ⟨fun d n id hid => ?_, fun d n d' n' id hid hid' => ?_, fun id hid => ?_, fun id hid => ?_, ?_⟩
  · rw [enter_heap]
    rcases mem_slist_enter hid with hid | ⟨rfl, -⟩
    · rw [Function.update_of_ne (h.ne_next hid)]
      exact h.held d n id hid
    · simp
  · rcases mem_slist_enter hid with hid | ⟨rfl, rfl, rfl⟩
    · rcases mem_slist_enter hid' with hid' | ⟨rfl, -⟩
      · exact h.unique d n d' n' id hid hid'
      · exact absurd rfl (h.ne_next hid)
    · rcases mem_slist_enter hid' with hid' | ⟨-, rfl, rfl⟩
      · exact absurd rfl (h.ne_next hid')
      · exact ⟨rfl, rfl⟩
  · rw [hnext] at hid
    have hnew : s.next < id := hid
    rw [enter_heap, Function.update_of_ne hnew.ne']
    exact h.fresh id hnew.le
  · obtain rfl := Option.some.inj hid
    rw [enter_heap]
    simp
  · rw [hcount]
    exact h.count

/-- A server changes where it stands. -/
theorem Inv.setServer (h : Inv s) (hid : s.heap id ≠ none) (server : Server) (returned : Option ServerId)
    (hreturned : ∀ id', returned = some id' → s.heap id' ≠ none) :
    Inv { s.setServer id (some server) with returned := returned } := by
  have hkept : ∀ id', s.heap id' ≠ none → Function.update s.heap id (some server) id' ≠ none := by
    intro id' hid'
    by_cases heq : id' = id
    · rw [heq, Function.update_self]
      nofun
    · rwa [Function.update_of_ne heq]
  refine ⟨fun d n id' hmem => hkept id' (h.held d n id' hmem), h.unique, fun id' hfresh => ?_, fun id' hgiven => ?_,
    h.count⟩
  · change Function.update s.heap id (some server) id' = none
    rw [Function.update_of_ne]
    · exact h.fresh id' hfresh
    · rintro rfl
      exact hid (h.fresh _ hfresh)
  · exact hkept id' (hreturned id' hgiven)

/-- What a restart that fails leaves: the server is freed, and its vector is gone. -/
def dropped (s : Manager) (domain name : Str) (servers : OrdMap Str (List ServerId)) (id : ServerId) : Manager :=
  { s.setServer id none with domains := s.domains.insert domain (servers.erase name), returned := none }

theorem slist_dropped {servers : OrdMap Str (List ServerId)} (hdomain : s.domains[domain]? = some servers) :
    (s.dropped domain name servers id).slist d n = if domain = d ∧ name = n then [] else s.slist d n := by
  unfold dropped slist
  dsimp only
  rw [OrdMap.getD_put]
  by_cases hd : domain = d
  · subst hd
    have hservers : s.domains.getD domain ∅ = servers := by rw [ExtTreeMap.getD_eq_getD_getElem?, hdomain]; rfl
    rw [if_pos rfl, OrdMap.getD_cut, hservers]
    simp
  · rw [if_neg hd, if_neg fun h => hd h.1]

theorem Inv.dropped {servers : OrdMap Str (List ServerId)} (h : Inv s) (hdomain : s.domains[domain]? = some servers)
    (hid : id ∈ s.slist domain name) : Inv (s.dropped domain name servers id) := by
  have hold : ∀ d n, ∀ id' ∈ (s.dropped domain name servers id).slist d n,
      id' ∈ s.slist d n ∧ ¬ (domain = d ∧ name = n) := by
    intro d n id' hid'
    rw [slist_dropped hdomain] at hid'
    split_ifs at hid' with hplace
    · cases hid'
    · exact ⟨hid', hplace⟩
  refine ⟨fun d n id' hid' => ?_, fun d n d' n' id' h₁ h₂ => ?_, fun id' hfresh => ?_, nofun, h.count⟩
  · obtain ⟨hold', hplace⟩ := hold d n id' hid'
    change Function.update s.heap id none id' ≠ none
    rw [Function.update_of_ne]
    · exact h.held d n id' hold'
    · rintro rfl
      exact hplace (h.unique domain name d n _ hid hold')
  · exact h.unique d n d' n' id' (hold d n id' h₁).1 (hold d' n' id' h₂).1
  · change Function.update s.heap id none id' = none
    by_cases heq : id' = id
    · rw [heq, Function.update_self]
    · rw [Function.update_of_ne heq]
      exact h.fresh id' hfresh

theorem restart_cases {servers : OrdMap Str (List ServerId)} :
    (∃ server' returned, (∀ id', returned = some id' → id' = id) ∧
      s.restart domain name servers id server launch =
        { s.setServer id (some server') with returned := returned }) ∨
    s.restart domain name servers id server launch = s.dropped domain name servers id := by
  unfold restart
  dsimp only
  split
  · exact Or.inl ⟨_, some id, fun id' h => (Option.some.inj h).symm, rfl⟩
  · exact Or.inr rfl
  · exact Or.inl ⟨_, none, nofun, rfl⟩

/-- **What `getServer` does.** -/
theorem getServer_cases {seed : Int} :
    s.getServer domain name seed launch = { s with returned := none } ∨
    (∃ id ∈ s.slist domain name, s.getServer domain name seed launch = { s with returned := some id }) ∨
    ∃ id ∈ s.slist domain name, ∃ servers server, s.domains[domain]? = some servers ∧ s.heap id = some server ∧
      server.isLocal = true ∧ s.getServer domain name seed launch = s.restart domain name servers id server launch := by
  unfold getServer
  split
  · exact Or.inl rfl
  · rename_i servers hdomain
    split
    · exact Or.inl rfl
    · rename_i id hchosen
      obtain ⟨slist, hname, hid⟩ := Option.bind_eq_some_iff.mp hchosen
      have hmem : id ∈ s.slist domain name :=
        mem_slist.mpr ⟨servers, slist, hdomain, hname, List.mem_of_getElem? hid⟩
      split
      · rename_i path host port hserver
        exact Or.inr (Or.inr ⟨id, hmem, servers, _, hdomain, hserver, rfl, rfl⟩)
      · exact Or.inr (Or.inl ⟨id, hmem, rfl⟩)

theorem Inv.getServer (h : Inv s) (seed : Int) : Inv (s.getServer domain name seed launch) := by
  rcases @getServer_cases s domain name launch seed with heq | ⟨id, hid, heq⟩ | ⟨id, hid, servers, server, hdomain, hserver, -, heq⟩
  · rw [heq]
    exact ⟨h.held, h.unique, h.fresh, nofun, h.count⟩
  · rw [heq]
    refine ⟨h.held, h.unique, h.fresh, fun id' hgiven => ?_, h.count⟩
    obtain rfl := Option.some.inj hgiven
    exact h.held domain name _ hid
  · rw [heq]
    rcases @restart_cases s domain name id server launch servers with ⟨server', returned, hreturned, heq⟩ | heq
    · rw [heq]
      have hheld : s.heap id ≠ none := h.held domain name id hid
      exact h.setServer hheld server' returned fun id' hgiven => hreturned id' hgiven ▸ hheld
    · rw [heq]
      exact h.dropped hdomain hid

/-- A server that is not held, or no longer there, took the next address. -/
theorem Inv.leaked (h : Inv s) {heap : ServerId → Option Server} (hheap : ∀ id ≠ s.next, heap id = s.heap id) :
    Inv { s with heap := heap, next := s.next + 1, returned := none } := by
  refine ⟨fun d n id hid => ?_, h.unique, fun id hid => ?_, nofun, h.count⟩
  · dsimp only
    rw [hheap id (h.ne_next hid)]
    exact h.held d n id hid
  · have hnew : s.next < id := hid
    dsimp only
    rw [hheap id hnew.ne']
    exact h.fresh id hnew.le

/-- **What `runAndAddServer` does.** -/
theorem runAndAddServer_cases {path : Str} {port : UInt16} :
    (∃ port', launch = .started port' ∧ s.nServers < s.maxServers ∧
      s.runAndAddServer domain path port launch = s.enter ⟨path, LOCALHOST_ADDRESS, port', true, true⟩ domain path) ∨
    ¬ (∃ port', launch = .started port' ∧ s.nServers < s.maxServers) ∧ ∃ heap, (∀ id ≠ s.next, heap id = s.heap id) ∧
      s.runAndAddServer domain path port launch = { s with heap := heap, next := s.next + 1, returned := none } := by
  unfold runAndAddServer runServer
  dsimp only
  by_cases hfull : s.nServers ≥ s.maxServers
  · rw [if_pos hfull]
    exact Or.inr ⟨fun ⟨_, _, hlt⟩ => absurd hlt hfull.not_gt, s.heap, fun _ _ => rfl, rfl⟩
  · rw [if_neg hfull]
    cases launch with
    | started port' => exact Or.inl ⟨port', rfl, lt_of_not_ge hfull, rfl⟩
    | failed => exact Or.inr ⟨nofun, s.heap, fun _ _ => rfl, rfl⟩
    | threw => exact Or.inr ⟨nofun, _, fun id hid => Function.update_of_ne hid _ _, rfl⟩

theorem Inv.runAndAddServer (h : Inv s) (path : Str) (port : UInt16) :
    Inv (s.runAndAddServer domain path port launch) := by
  rcases @runAndAddServer_cases s domain launch path port with ⟨port', -, -, heq⟩ | ⟨-, heap, hheap, heq⟩
  · rw [heq]
    exact h.enter
  · rw [heq]
    exact h.leaked hheap

theorem Inv.died (h : Inv s) (id : ServerId) : Inv (s.died id) := by
  unfold Manager.died
  cases hserver : s.heap id with
  | none =>
    have hsame : s.setServer id none = s := by
      unfold Manager.setServer
      rw [← hserver, Function.update_eq_self]
    rw [Option.map_none, hsame]
    exact h
  | some server => exact h.setServer (by rw [hserver]; nofun) _ s.returned h.given

theorem slist_clear : s.clear.slist d n = [] := by
  unfold clear slist
  simp

theorem Inv.clear (h : Inv s) : Inv s.clear := by
  refine ⟨fun d n id hid => ?_, fun d n d' n' id hid => ?_, fun id hid => ?_, nofun, ?_⟩
  · rw [slist_clear] at hid
    cases hid
  · rw [slist_clear] at hid
    cases hid
  · have hid : s.heap id = none := h.fresh id hid
    change (if id ∈ s.servers then none else s.heap id) = none
    rw [hid, ite_self]
  · have := h.count
    change s.nServers - s.servers.countP s.isLocal ≤ 0
    omega

theorem Inv.createDomain (h : Inv s) : Inv (s.createDomain domain) := by
  have hsame : (s.createDomain domain).next = s.next ∧ (s.createDomain domain).returned = s.returned ∧
      (s.createDomain domain).nServers = s.nServers := by
    unfold Manager.createDomain
    split_ifs <;> exact ⟨rfl, rfl, rfl⟩
  refine ⟨fun d n id hid => ?_, fun d n d' n' id hid hid' => ?_, fun id hid => ?_, fun id hid => ?_, ?_⟩
  · rw [createDomain_heap]
    exact h.held d n id (slist_createDomain ▸ hid)
  · exact h.unique d n d' n' id (slist_createDomain ▸ hid) (slist_createDomain ▸ hid')
  · rw [createDomain_heap]
    exact h.fresh id (hsame.1 ▸ hid)
  · rw [createDomain_heap]
    exact h.given id (hsame.2.1 ▸ hid)
  · rw [hsame.2.2]
    exact h.count

theorem step_eq_some {op : Op} : s.step op = some s' ↔ (s.stuck && op.isCall) = false ∧ s.perform op = s' := by
  unfold step
  split_ifs with h <;> simp [h]

/-- **No run holds or gives a server that was freed.** -/
theorem Inv.perform (h : Inv s) (op : Op) : Inv (s.perform op) := by
  cases op with
  | createDomain name => exact h.createDomain
  | runAndAddServer domain path port launch => exact h.runAndAddServer path port
  | addRemoteServer domain name host port => exact h.enter
  | getServer domain name seed launch => exact h.getServer seed
  | removeDomain domain => exact ⟨h.held, h.unique, h.fresh, nofun, h.count⟩
  | clear => exact h.clear
  | died id => exact h.died id

theorem inv_new (maxServers : Int) : Inv (new maxServers) := by
  have hnone : ∀ d n, (new maxServers).slist d n = [] := fun d n => by simp [slist, new]
  refine ⟨fun d n id hid => ?_, fun d n d' n' id hid => ?_, fun _ _ => rfl, nofun, le_rfl⟩
  · rw [hnone] at hid
    cases hid
  · rw [hnone] at hid
    cases hid

/-! ## Runs without a process -/

/-- Only remote servers are held, and none are counted. -/
structure Remote (maxServers : Int) (s : Manager) : Prop where
  inv : Inv s
  count : s.nServers = 0
  remote : ∀ d n, ∀ id ∈ s.slist d n, s.isLocal id = false
  max : s.maxServers = maxServers

variable {maxServers : Int} {op : Op}

theorem Remote.getServer (h : Remote maxServers s) (seed : Int) :
    ∃ returned, s.getServer domain name seed launch = { s with returned := returned } := by
  rcases @getServer_cases s domain name launch seed with heq | ⟨id, -, heq⟩ | ⟨id, hid, servers, server, -, hserver, hlocal, -⟩
  · exact ⟨_, heq⟩
  · exact ⟨_, heq⟩
  · have hremote := h.remote domain name id hid
    simp [isLocal, hserver, hlocal] at hremote

theorem Remote.died (h : Remote maxServers s) (id : ServerId) : Remote maxServers (s.died id) := by
  have hsame : (s.died id).isLocal = s.isLocal := by
    funext id'
    unfold isLocal Manager.died Manager.setServer
    by_cases heq : id' = id
    · subst heq
      simp only [Function.update_self]
      cases s.heap id' <;> rfl
    · simp only [Function.update_of_ne heq]
  exact ⟨h.inv.died id, h.count, fun d n id' hid' => hsame ▸ h.remote d n id' hid', h.max⟩

theorem Remote.enter (h : Remote maxServers s) (hserver : server.isLocal = false) :
    Remote maxServers (s.enter server domain name) := by
  obtain ⟨-, hcount, hmax, -⟩ := @enter_rest s domain name server
  refine ⟨h.inv.enter, hcount.trans h.count, fun d n id hid => ?_, hmax.trans h.max⟩
  rw [isLocal, enter_heap]
  rcases mem_slist_enter hid with hid | ⟨rfl, -⟩
  · rw [Function.update_of_ne (h.inv.ne_next hid)]
    exact h.remote d n id hid
  · rw [Function.update_self]
    exact hserver

theorem Remote.clear (h : Remote maxServers s) : Remote maxServers s.clear := by
  have hnone : s.servers.countP s.isLocal = 0 := by
    rw [List.countP_eq_zero]
    intro id hid
    obtain ⟨domain, name, hid⟩ := mem_servers.mp hid
    simp [h.remote domain name id hid]
  refine ⟨h.inv.clear, ?_, fun d n id hid => ?_, h.max⟩
  · change s.nServers - s.servers.countP s.isLocal = 0
    rw [hnone, h.count]
    rfl
  · rw [slist_clear] at hid
    cases hid

theorem Remote.createDomain (h : Remote maxServers s) : Remote maxServers (s.createDomain domain) := by
  have hsame : (s.createDomain domain).nServers = s.nServers ∧ (s.createDomain domain).maxServers = s.maxServers := by
    unfold Manager.createDomain
    split_ifs <;> exact ⟨rfl, rfl⟩
  refine ⟨h.inv.createDomain, hsame.1.trans h.count, fun d n id hid => ?_, hsame.2.trans h.max⟩
  rw [isLocal, createDomain_heap]
  exact h.remote d n id (slist_createDomain ▸ hid)

/-- **Until a process is started there are remote servers only.** -/
theorem Remote.step (h : Remote maxServers s) (hstarts : ¬ s.Starts op) (hstep : s.step op = some s') :
    Remote maxServers s' := by
  obtain ⟨hfree, rfl⟩ := step_eq_some.mp hstep
  have hinv := h.inv.perform op
  cases op with
  | createDomain name => exact h.createDomain
  | runAndAddServer domain path port launch =>
    unfold perform at hinv ⊢
    dsimp only at hinv ⊢
    rcases @runAndAddServer_cases s domain launch path port with ⟨port', rfl, hlt, -⟩ | ⟨-, heap, hheap, heq⟩
    · exact absurd ⟨by simpa [Op.isCall] using hfree, hlt⟩ hstarts
    · rw [heq] at hinv ⊢
      refine ⟨hinv, h.count, fun d n id hid => ?_, h.max⟩
      rw [isLocal]
      dsimp only
      rw [hheap id (h.inv.ne_next hid)]
      exact h.remote d n id hid
  | addRemoteServer domain name host port => exact h.enter rfl
  | getServer domain name seed launch =>
    unfold perform at hinv ⊢
    dsimp only at hinv ⊢
    obtain ⟨returned, heq⟩ := @Remote.getServer s domain name launch maxServers h seed
    rw [heq] at hinv ⊢
    exact ⟨hinv, h.count, h.remote, h.max⟩
  | removeDomain domain => exact ⟨hinv, h.count, h.remote, h.max⟩
  | clear => exact h.clear
  | died id => exact h.died id

theorem Remote.sound (h : Remote maxServers s) (hmax : 0 ≤ maxServers) : s.Sound := by
  refine ⟨?_, ?_, fun id hid => ?_, h.inv.given⟩
  · rw [h.count, eq_comm, Nat.cast_eq_zero, List.countP_eq_zero]
    intro id hid
    obtain ⟨domain, name, hid⟩ := mem_servers.mp hid
    have hremote := h.remote domain name id hid
    unfold isLocal at hremote
    unfold runs
    cases hserver : s.heap id with
    | none => simp
    | some server => simp_all
  · rw [h.count, h.max]
    exact hmax
  · obtain ⟨domain, name, hid⟩ := mem_servers.mp hid
    exact h.inv.held domain name id hid

theorem Remote.manages_of_not_starts (h : Remote maxServers s) (hmax : 0 ≤ maxServers) (hstarts : ¬ s.Starts op) :
    s.Manages op := by
  intro s' hstep
  refine ⟨(h.step hstarts hstep).sound hmax, ?_⟩
  obtain ⟨-, rfl⟩ := step_eq_some.mp hstep
  cases op with
  | getServer domain name seed launch =>
    intro d n id hid _
    obtain ⟨returned, heq⟩ := @Remote.getServer s domain name launch maxServers h seed
    change id ∈ (s.getServer domain name seed launch).slist d n
    rw [heq]
    exact hid
  | _ => trivial

/-- A process is not counted when it is started. -/
theorem Remote.not_manages_of_starts (h : Remote maxServers s) (hstarts : s.Starts op) : ¬ s.Manages op := by
  intro hmanages
  match op, hstarts with
  | .runAndAddServer domain path port (.started port'), ⟨hstuck, hlt⟩ =>
    have hrun : s.runAndAddServer domain path port (.started port') =
        s.enter ⟨path, LOCALHOST_ADDRESS, port', true, true⟩ domain path := by
      rcases @runAndAddServer_cases s domain (.started port') path port with ⟨port'', hport, -, heq⟩ | ⟨hnot, -⟩
      · cases hport
        exact heq
      · exact absurd ⟨port', rfl, hlt⟩ hnot
    obtain ⟨⟨hcounted, -, -, -⟩, -⟩ := hmanages _ (step_eq_some.mpr ⟨by rw [hstuck]; rfl, hrun⟩)
    have hcount := (@enter_rest s domain path ⟨path, LOCALHOST_ADDRESS, port', true, true⟩).2.1
    rw [hcount, h.count, eq_comm, Nat.cast_eq_zero, List.countP_eq_zero] at hcounted
    refine hcounted s.next (mem_servers.mpr ⟨domain, path, ?_⟩) ?_
    · rw [slist_enter]
      simp
    · rw [runs, enter_heap, Function.update_self]
      rfl

theorem remote_new (maxServers : Int) : Remote maxServers (new maxServers) :=
  ⟨inv_new maxServers, rfl, fun d n id hid => by simp [slist, new] at hid, rfl⟩

/-- In every run, what is held or given was not freed. -/
theorem freed_not_held (maxServers : Int) (ops : List Op) :
    Safety.Throughout step (fun s => (∀ id ∈ s.servers, s.heap id ≠ none) ∧
      ∀ id, s.returned = some id → s.heap id ≠ none) ops (new maxServers) := by
  refine @Safety.throughout_of_invariant Manager Op step _ Inv (fun _ _ => True) _ _ (fun s op s' h _ hstep => ?_)
    (fun s h => ⟨fun id hid => ?_, h.given⟩) (inv_new maxServers) (Safety.along_of_forall fun _ _ _ => trivial)
  · obtain ⟨-, rfl⟩ := step_eq_some.mp hstep
    exact h.perform op
  · obtain ⟨domain, name, hid⟩ := mem_servers.mp hid
    exact h.held domain name id hid

/-- **A restart that fails takes all servers of the name out,** not only the one that is freed. -/
theorem dropped_keepsOthers_iff (h : Inv s) {servers : OrdMap Str (List ServerId)}
    (hdomain : s.domains[domain]? = some servers) (seed : Int) :
    s.KeepsOthers (s.dropped domain name servers id) (.getServer domain name seed launch) ↔
      ∀ id' ∈ s.slist domain name, id' = id := by
  constructor
  · intro hkeeps id' hid'
    by_contra hne
    have hheap : (s.dropped domain name servers id).heap id' ≠ none := by
      change Function.update s.heap id none id' ≠ none
      rw [Function.update_of_ne hne]
      exact h.held domain name id' hid'
    have hlost := hkeeps domain name id' hid' hheap
    rw [slist_dropped hdomain, if_pos ⟨rfl, rfl⟩] at hlost
    cases hlost
  · intro halone d n id' hid' hheap
    rw [slist_dropped hdomain, if_neg]
    · exact hid'
    · rintro ⟨rfl, rfl⟩
      obtain rfl := halone id' hid'
      exact hheap (Function.update_self _ _ _)

end Manager

end MyServer.ProcessServers
