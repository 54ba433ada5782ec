import MyServer.Bytes
import MyServer.Lib.Safety

/-!
# The references of the virtual hosts

Who takes and who gives back a reference of a `Vhost`: `XmlVhostHandler::getVHost`,
`Server::addConnectionToList` and `deleteConnection`, `Connection::destroy`, the host that a request of HTTP
names, and the data connections of FTP, which copy the pointer (xml_vhost_handler.cpp, server.cpp,
connection.cpp, http.cpp, ftp.cpp). A host is its place in the list.
-/

open MyServer.Safety

namespace MyServer.Vhosts

structure Vhost where
  port : Nat
  isIPAllowed : Str → Bool
  isHostAllowed : Str → Bool

/-- The first host that fits, in whose counter it is put down. -/
def getVHost (hosts : List Vhost) (host : Option Str) (ip : Str) (port : Nat) : Option Nat :=
  hosts.findIdx? fun vh => vh.port = port && vh.isIPAllowed ip && host.all vh.isHostAllowed

/-- The `Connection` that an `FtpuserData` has. `up` is that it has a socket. -/
structure DataConnection where
  host : Option Nat
  up : Bool
  deriving DecidableEq

structure Connection where
  localIpAddr : Str
  localPort : Nat
  host : Option Nat
  dataConnection : Option DataConnection
  deriving DecidableEq

/-- How a connection that has its host is set up further. -/
inductive Setup where
  | accepted
  | refusedByHandler
  | sslHandshakeFailed
  | threw
  deriving DecidableEq

/-- A connection is named by its place among the live ones. -/
inductive Event where
  | addConnection (localIpAddr : Str) (localPort : Nat) (setup : Setup)
  | deleteConnection (i : Nat)
  | httpRequest (i : Nat) (host : Str)
  | openDataConnection (i : Nat)
  | closeDataConnection (i : Nat)

/-- `nullReferences` is how often the callback of each host ran. -/
structure State where
  refCount : Nat → Int
  nullReferences : Nat → Nat
  connections : List Connection

namespace State

def addRef (v : Nat) (s : State) : State :=
  { s with refCount := Function.update s.refCount v (s.refCount v + 1) }

def removeRef (v : Nat) (s : State) : State :=
  { s with
    refCount := Function.update s.refCount v (s.refCount v - 1)
    nullReferences :=
      if s.refCount v - 1 = 0 then Function.update s.nullReferences v (s.nullReferences v + 1)
      else s.nullReferences }

/-- `if (host) host->removeRef ()`. -/
def removeHost (host : Option Nat) (s : State) : State := host.elim s fun v => s.removeRef v

/-- A connection that is not accepted goes back to the pool as it is. -/
def addConnection (hosts : List Vhost) (localIpAddr : Str) (localPort : Nat) (setup : Setup) (s : State) : State :=
  match getVHost hosts none localIpAddr localPort with
  | none => s
  | some v =>
    let s := s.addRef v
    if setup = .accepted then { s with connections := ⟨localIpAddr, localPort, some v, none⟩ :: s.connections }
    else s

/-- `Connection::destroy`, which deletes the protocol's data first. -/
def destroy (c : Connection) (s : State) : State :=
  (s.removeHost (c.dataConnection.bind (·.host))).removeHost c.host

/-- `Http::controlConnection`, once it has the Host field. -/
def changeHost (hosts : List Vhost) (i : Nat) (c : Connection) (host : Str) (s : State) : State :=
  let newHost := getVHost hosts (some host) c.localIpAddr c.localPort
  let s := (newHost.elim s fun v => s.addRef v).removeHost c.host
  { s with connections := s.connections.set i { c with host := newHost } }

/-- `Ftp::OpenDataConnection`, when it can be opened. -/
def openDataConnection (i : Nat) (c : Connection) (s : State) : State :=
  if c.dataConnection.any (·.up) then s
  else { s with connections := s.connections.set i { c with dataConnection := some ⟨c.host, true⟩ } }

/-- `FtpuserData::closeDataConnection`. -/
def closeDataConnection (i : Nat) (c : Connection) (s : State) : State :=
  { s with
    connections := s.connections.set i
      { c with dataConnection := c.dataConnection.map fun d => { d with up := false } } }

def step (hosts : List Vhost) (s : State) : Event → Option State
  | .addConnection localIpAddr localPort setup => some (s.addConnection hosts localIpAddr localPort setup)
  | .deleteConnection i =>
    s.connections[i]?.map fun c => { s.destroy c with connections := s.connections.eraseIdx i }
  | .httpRequest i host => s.connections[i]?.map fun c => s.changeHost hosts i c host
  | .openDataConnection i => s.connections[i]?.map fun c => s.openDataConnection i c
  | .closeDataConnection i => s.connections[i]?.map fun c => s.closeDataConnection i c

end State

/-- How many live connections of a `Connection` have this host: itself, and its data connection. -/
def Connection.uses (v : Nat) (c : Connection) : Nat :=
  (if c.host = some v then 1 else 0) + if c.dataConnection = some ⟨some v, true⟩ then 1 else 0

/-- The live connections whose host it is. -/
def State.live (s : State) (v : Nat) : Nat := (s.connections.map (·.uses v)).sum

/-- A run, and how often the last connection of each host went. -/
structure Watched where
  state : State
  emptied : Nat → Nat

def Watched.step (hosts : List Vhost) (w : Watched) (e : Event) : Option Watched :=
  (w.state.step hosts e).map fun s =>
    ⟨s, fun v => w.emptied v + if 0 < w.state.live v ∧ s.live v = 0 then 1 else 0⟩

def Watched.start : Watched := ⟨⟨fun _ => 0, fun _ => 0, []⟩, fun _ => 0⟩

/-- Each counter is the number of live connections, and each callback ran when the last of them went. -/
def Balanced (w : Watched) : Prop :=
  ∀ v, w.state.refCount v = w.state.live v ∧ w.state.nullReferences v = w.emptied v

/-- A connection that has a host is accepted, and no data connection gets a host. -/
def Kept (hosts : List Vhost) (w : Watched) : Event → Prop
  | .addConnection localIpAddr localPort setup =>
    getVHost hosts none localIpAddr localPort = none ∨ setup = .accepted
  | .openDataConnection i =>
    ∀ c ∈ w.state.connections[i]?, c.dataConnection.any (·.up) = true ∨ c.host = none
  | _ => True

/-! ## Counting -/

theorem sum_set {α : Type} (f : α → Nat) {l : List α} {i : Nat} {a : α} (h : l[i]? = some a) (b : α) :
    ((l.set i b).map f).sum + f a = (l.map f).sum + f b := by
  induction l generalizing i with
  | nil => exact absurd h nofun
  | cons x l ih =>
    cases i with
    | zero =>
      obtain rfl := Option.some.inj h
      simp only [List.set_cons_zero, List.map_cons, List.sum_cons]
      omega
    | succ i =>
      have hrest := ih h
      simp only [List.set_cons_succ, List.map_cons, List.sum_cons]
      omega

theorem sum_eraseIdx {α : Type} (f : α → Nat) {l : List α} {i : Nat} {a : α} (h : l[i]? = some a) :
    ((l.eraseIdx i).map f).sum + f a = (l.map f).sum := by
  induction l generalizing i with
  | nil => exact absurd h nofun
  | cons x l ih =>
    cases i with
    | zero =>
      obtain rfl := Option.some.inj h
      simp only [List.eraseIdx_cons_zero, List.map_cons, List.sum_cons]
      omega
    | succ i =>
      have hrest := ih h
      simp only [List.eraseIdx_cons_succ, List.map_cons, List.sum_cons]
      omega

/-- One for a connection of this host. -/
def one (host : Option Nat) (v : Nat) : Nat := if host = some v then 1 else 0

theorem one_pos {host : Option Nat} {v : Nat} (h : host = some v) : one host v = 1 := if_pos h

theorem one_neg {host : Option Nat} {v : Nat} (h : host ≠ some v) : one host v = 0 := if_neg h

theorem uses_of_none {c : Connection} (h : c.dataConnection.bind (·.host) = none) (v : Nat) :
    c.uses v = one c.host v := by
  have hdata : c.dataConnection ≠ some ⟨some v, true⟩ := by
    intro heq
    rw [heq] at h
    exact absurd h nofun
  unfold Connection.uses one
  rw [@if_neg (c.dataConnection = some ⟨some v, true⟩) _ hdata, Nat.add_zero]

namespace State

@[simp] theorem removeHost_connections (host : Option Nat) (s : State) :
    (s.removeHost host).connections = s.connections := by
  cases host <;> rfl

theorem removeHost_refCount (host : Option Nat) (s : State) (v : Nat) :
    (s.removeHost host).refCount v = s.refCount v - one host v := by
  cases host with
  | none => simp [removeHost, one]
  | some u =>
    by_cases hv : u = v
    · simp [removeHost, removeRef, one, hv]
    · simp [removeHost, removeRef, one, hv, Function.update_of_ne (Ne.symm hv)]

theorem removeHost_nullReferences (host : Option Nat) (s : State) (v : Nat) :
    (s.removeHost host).nullReferences v =
      s.nullReferences v + if host = some v ∧ s.refCount v = 1 then 1 else 0 := by
  cases host with
  | none => simp [removeHost]
  | some u =>
    simp only [removeHost, removeRef, Option.elim_some, Option.some.injEq]
    by_cases hv : u = v
    · subst hv
      by_cases hone : s.refCount u = 1
      · simp [hone]
      · have hzero : s.refCount u - 1 ≠ 0 := by omega
        simp [hone, hzero]
    · have hnot : ¬ (u = v ∧ s.refCount v = 1) := fun h => hv h.1
      rw [if_neg hnot, Nat.add_zero]
      split_ifs
      · exact Function.update_of_ne (Ne.symm hv) _ _
      · rfl

/-- A host that was found has one reference more. -/
theorem found_refCount (host : Option Nat) (s : State) (v : Nat) :
    (host.elim s fun u => s.addRef u).refCount v = s.refCount v + one host v := by
  cases host with
  | none => simp [one]
  | some u =>
    by_cases hv : u = v
    · simp [addRef, one, hv]
    · simp [addRef, one, hv, Function.update_of_ne (Ne.symm hv)]

@[simp] theorem found_nullReferences (host : Option Nat) (s : State) :
    (host.elim s fun u => s.addRef u).nullReferences = s.nullReferences := by
  cases host <;> rfl

@[simp] theorem found_connections (host : Option Nat) (s : State) :
    (host.elim s fun u => s.addRef u).connections = s.connections := by
  cases host <;> rfl

end State

/-! ## The steps -/

/-- The counters are right, and the data connections have no hosts. -/
structure Inv (w : Watched) : Prop where
  balanced : Balanced w
  noHost : ∀ c ∈ w.state.connections, c.dataConnection.bind (·.host) = none

section

variable {hosts : List Vhost} {w w' : Watched} {i : Nat} {c : Connection}

theorem Inv.find (h : Inv w) (hc : w.state.connections[i]? = some c) : c.dataConnection.bind (·.host) = none :=
  h.noHost c (List.mem_of_getElem? hc)

/-- What a step has to do to each counter. -/
theorem Inv.next (s : State) (hcount : ∀ v, s.refCount v = s.live v)
    (hcalls : ∀ v, s.nullReferences v = w.emptied v + if 0 < w.state.live v ∧ s.live v = 0 then 1 else 0)
    (hhost : ∀ c ∈ s.connections, c.dataConnection.bind (·.host) = none) :
    Inv ⟨s, fun v => w.emptied v + if 0 < w.state.live v ∧ s.live v = 0 then 1 else 0⟩ :=
  ⟨fun v => ⟨hcount v, hcalls v⟩, hhost⟩

theorem Inv.addConnection (h : Inv w) {ip : Str} {port : Nat} {setup : Setup}
    (hkept : Kept hosts w (.addConnection ip port setup)) (hstep : w.step hosts (.addConnection ip port setup) = some w') :
    Inv w' := by
  obtain rfl := Option.some.inj hstep
  unfold State.addConnection
  cases hfound : getVHost hosts none ip port with
  | none =>
    refine Inv.next w.state (fun v => (h.balanced v).1) (fun v => ?_) h.noHost
    rw [(h.balanced v).2, if_neg (by omega), Nat.add_zero]
  | some u =>
    have haccepted : setup = .accepted := hkept.resolve_left (by rw [hfound]; nofun)
    dsimp only
    rw [if_pos haccepted]
    have hlive : ∀ v, (⟨(w.state.addRef u).refCount, (w.state.addRef u).nullReferences,
        ⟨ip, port, some u, none⟩ :: (w.state.addRef u).connections⟩ : State).live v =
          one (some u) v + w.state.live v := by
      intro v
      unfold State.live
      rw [List.map_cons, List.sum_cons, uses_of_none rfl]
      rfl
    refine Inv.next _ (fun v => ?_) (fun v => ?_) ?_
    · have href := State.found_refCount (some u) w.state v
      have hcount := (h.balanced v).1
      rw [hlive]
      dsimp only [Option.elim_some] at href ⊢
      omega
    · have hcalls : (w.state.addRef u).nullReferences v = w.emptied v := (h.balanced v).2
      rw [if_neg (by rw [hlive]; omega), Nat.add_zero]
      exact hcalls
    · intro c hc
      rcases List.mem_cons.mp hc with rfl | hc
      · rfl
      · exact h.noHost c hc

theorem Inv.deleteConnection (h : Inv w) (hstep : w.step hosts (.deleteConnection i) = some w') : Inv w' := by
  unfold Watched.step State.step at hstep
  obtain ⟨s, hs, rfl⟩ := Option.map_eq_some_iff.mp hstep
  obtain ⟨c, hc, rfl⟩ := Option.map_eq_some_iff.mp hs
  have hnone := h.find hc
  have hdestroy : w.state.destroy c = w.state.removeHost c.host := by
    unfold State.destroy
    rw [hnone]
    rfl
  rw [hdestroy]
  have hlive : ∀ v, (State.mk (w.state.removeHost c.host).refCount (w.state.removeHost c.host).nullReferences
      (w.state.connections.eraseIdx i)).live v + one c.host v = w.state.live v := by
    intro v
    rw [← uses_of_none hnone]
    exact sum_eraseIdx (·.uses v) hc
  refine Inv.next _ (fun v => ?_) (fun v => ?_) fun c' hc' => h.noHost c' (List.mem_of_mem_eraseIdx hc')
  · have href := State.removeHost_refCount c.host w.state v
    have hcount := (h.balanced v).1
    have hleft := hlive v
    dsimp only
    omega
  · have hnull := State.removeHost_nullReferences c.host w.state v
    obtain ⟨hcount, hcalls⟩ := h.balanced v
    have hleft := hlive v
    dsimp only
    rw [hnull, hcalls]
    by_cases hv : c.host = some v
    · rw [one_pos hv] at hleft
      congr 1
      refine if_congr ⟨fun hlast => ?_, fun hlast => ⟨hv, by omega⟩⟩ rfl rfl
      have hlast := hlast.2
      omega
    · rw [one_neg hv] at hleft
      rw [if_neg (fun h => hv h.1), if_neg (by omega)]

theorem Inv.httpRequest (h : Inv w) {host : Str} (hstep : w.step hosts (.httpRequest i host) = some w') : Inv w' := by
  unfold Watched.step State.step at hstep
  obtain ⟨s, hs, rfl⟩ := Option.map_eq_some_iff.mp hstep
  obtain ⟨c, hc, rfl⟩ := Option.map_eq_some_iff.mp hs
  have hnone := h.find hc
  generalize hnew : getVHost hosts (some host) c.localIpAddr c.localPort = newHost
  have hfoundRef := fun v => State.found_refCount newHost w.state v
  have hfoundNull := State.found_nullReferences newHost w.state
  have hchanged : w.state.changeHost hosts i c host =
      ⟨((newHost.elim w.state fun v => w.state.addRef v).removeHost c.host).refCount,
        ((newHost.elim w.state fun v => w.state.addRef v).removeHost c.host).nullReferences,
        w.state.connections.set i { c with host := newHost }⟩ := by
    unfold State.changeHost
    rw [hnew]
    dsimp only
    rw [State.removeHost_connections, State.found_connections]
  rw [hchanged]
  generalize (newHost.elim w.state fun v => w.state.addRef v) = found at hfoundRef hfoundNull ⊢
  have hlive : ∀ v, (State.mk (found.removeHost c.host).refCount (found.removeHost c.host).nullReferences
      (w.state.connections.set i { c with host := newHost })).live v + one c.host v = w.state.live v + one newHost v := by
    intro v
    have hsum := sum_set (·.uses v) hc { c with host := newHost }
    have huses : Connection.uses v { c with host := newHost } = one newHost v :=
      @uses_of_none { c with host := newHost } hnone v
    rw [uses_of_none hnone, huses] at hsum
    exact hsum
  refine Inv.next _ (fun v => ?_) (fun v => ?_) ?_
  · have href := State.removeHost_refCount c.host found v
    have hcount := (h.balanced v).1
    have hleft := hlive v
    have htaken := hfoundRef v
    dsimp only
    omega
  · have hnull := State.removeHost_nullReferences c.host found v
    obtain ⟨hcount, hcalls⟩ := h.balanced v
    have hleft := hlive v
    have htaken := hfoundRef v
    have huse : one c.host v ≤ w.state.live v := by
      have hsum := sum_eraseIdx (·.uses v) hc
      rw [uses_of_none hnone] at hsum
      unfold State.live
      omega
    dsimp only
    rw [hnull, hfoundNull, hcalls]
    by_cases hv : c.host = some v
    · rw [one_pos hv] at hleft huse
      congr 1
      refine if_congr ⟨fun hlast => ?_, fun hlast => ⟨hv, by omega⟩⟩ rfl rfl
      have hlast := hlast.2
      omega
    · rw [one_neg hv] at hleft
      rw [if_neg (fun h => hv h.1), if_neg (by omega)]
  · intro c' hc'
    rcases List.mem_or_eq_of_mem_set hc' with hc' | rfl
    · exact h.noHost c' hc'
    · exact hnone

/-- A data connection without a host is nobody's. -/
theorem Inv.setData (h : Inv w) (hc : w.state.connections[i]? = some c) {d : Option DataConnection}
    (hd : d.bind (·.host) = none) :
    Inv ⟨{ w.state with connections := w.state.connections.set i { c with dataConnection := d } }, fun v =>
      w.emptied v + if 0 < w.state.live v ∧
        ({ w.state with connections := w.state.connections.set i { c with dataConnection := d } } : State).live v = 0
        then 1 else 0⟩ := by
  have hlive : ∀ v, ({ w.state with connections := w.state.connections.set i { c with dataConnection := d } } : State).live v =
      w.state.live v := by
    intro v
    have hsum := sum_set (·.uses v) hc { c with dataConnection := d }
    have huses : Connection.uses v { c with dataConnection := d } = one c.host v := uses_of_none hd v
    rw [uses_of_none (h.find hc), huses] at hsum
    unfold State.live
    dsimp only
    omega
  refine Inv.next _ (fun v => ?_) (fun v => ?_) ?_
  · rw [hlive]
    exact (h.balanced v).1
  · rw [hlive, if_neg (by omega), Nat.add_zero]
    exact (h.balanced v).2
  · intro c' hc'
    rcases List.mem_or_eq_of_mem_set hc' with hc' | rfl
    · exact h.noHost c' hc'
    · exact hd

/-- **A step that is kept** keeps the counters right. -/
theorem Inv.step (h : Inv w) {e : Event} (hkept : Kept hosts w e) (hstep : w.step hosts e = some w') : Inv w' := by
  cases e with
  | addConnection ip port setup => exact h.addConnection hkept hstep
  | deleteConnection i => exact h.deleteConnection hstep
  | httpRequest i host => exact h.httpRequest hstep
  | openDataConnection i =>
    unfold Watched.step State.step at hstep
    obtain ⟨s, hs, rfl⟩ := Option.map_eq_some_iff.mp hstep
    obtain ⟨c, hc, rfl⟩ := Option.map_eq_some_iff.mp hs
    unfold State.openDataConnection
    split_ifs with hup
    · refine Inv.next w.state (fun v => (h.balanced v).1) (fun v => ?_) h.noHost
      rw [(h.balanced v).2, if_neg (by omega), Nat.add_zero]
    · have hnone : c.host = none := (hkept c hc).resolve_left hup
      exact h.setData hc (d := some ⟨c.host, true⟩) hnone
  | closeDataConnection i =>
    unfold Watched.step State.step at hstep
    obtain ⟨s, hs, rfl⟩ := Option.map_eq_some_iff.mp hstep
    obtain ⟨c, hc, rfl⟩ := Option.map_eq_some_iff.mp hs
    refine h.setData hc ?_
    have hnone := h.find hc
    cases hdata : c.dataConnection with
    | none => rfl
    | some d =>
      rw [hdata] at hnone
      exact hnone

/-- A step that is not kept leaves a counter wrong. -/
theorem Inv.needed (h : Inv w) {e : Event} (hnext : ∀ w', w.step hosts e = some w' → Balanced w') :
    Kept hosts w e := by
  cases e with
  | addConnection ip port setup =>
    by_contra hnot
    obtain ⟨hsome, hsetup⟩ := not_or.mp hnot
    obtain ⟨u, hfound⟩ := Option.ne_none_iff_exists'.mp hsome
    have hstate : w.state.addConnection hosts ip port setup = w.state.addRef u := by
      unfold State.addConnection
      rw [hfound]
      exact if_neg hsetup
    have hwrong := (hnext _ rfl u).1
    dsimp only at hwrong
    rw [hstate] at hwrong
    have href := State.found_refCount (some u) w.state u
    have hlive : (w.state.addRef u).live u = w.state.live u := rfl
    have hcount := (h.balanced u).1
    rw [one_pos rfl] at href
    dsimp only [Option.elim_some] at href
    omega
  | deleteConnection i => trivial
  | httpRequest i host => trivial
  | openDataConnection i =>
    intro c hc
    by_contra hnot
    obtain ⟨hup, hsome⟩ := not_or.mp hnot
    obtain ⟨u, hu⟩ := Option.ne_none_iff_exists'.mp hsome
    have hstate : w.state.step hosts (.openDataConnection i) = some
        { w.state with connections := w.state.connections.set i { c with dataConnection := some ⟨c.host, true⟩ } } := by
      have hopen : w.state.step hosts (.openDataConnection i) =
          w.state.connections[i]?.map fun c => w.state.openDataConnection i c := rfl
      rw [hopen, hc, Option.map_some, State.openDataConnection, if_neg hup]
    have hwrong := (hnext _ (by unfold Watched.step; rw [hstate]; rfl) u).1
    have hsum := sum_set (·.uses u) hc { c with dataConnection := some ⟨c.host, true⟩ }
    have huses : Connection.uses u { c with dataConnection := some ⟨c.host, true⟩ } = 2 := by
      simp [Connection.uses, hu]
    have hcount := (h.balanced u).1
    rw [uses_of_none (h.find hc), one_pos hu, huses] at hsum
    unfold State.live at hwrong hcount
    dsimp only at hwrong
    omega
  | closeDataConnection i => trivial

end

theorem inv_start : Inv Watched.start := ⟨fun _ => ⟨rfl, rfl⟩, nofun⟩

end MyServer.Vhosts
