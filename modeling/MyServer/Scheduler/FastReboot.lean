import MyServer.Scheduler.ListenThreads

/-!
# What a fast reboot leaves

The table and the sockets are kept in step, so that the ports that listen are the keys of the table. The commit and
the rollback are read off the table.
-/

open Std

namespace MyServer.Listen.ListenThreads

variable {w : World} {s s' : ListenThreads} {port p q : UInt16} {si : SocketInformation} {id : Nat} {family : Family}

/-- The table has a port with its sockets, and every socket is in the table. -/
structure Table (s : ListenThreads) : Prop where
  port : ∀ p (si : SocketInformation), s.usedPorts[p]? = some si → si.port = p ∧ ∃ family id, si.socket family = some id
  socket : ∀ id family p, s.sockets id = some (family, p) ↔
    ∃ si : SocketInformation, s.usedPorts[p]? = some si ∧ si.socket family = some id
  fresh : ∀ id ≥ s.next, s.sockets id = none

theorem mem_usedPorts : p ∈ s.usedPorts ↔ ∃ si, s.usedPorts[p]? = some si := by
  rw [← ExtTreeMap.isSome_getElem?_iff_mem, Option.isSome_iff_exists]

theorem Table.listens_iff (h : Table s) : s.Listens p ↔ p ∈ s.usedPorts := by
  rw [mem_usedPorts]
  constructor
  · rintro ⟨id, family, hid⟩
    obtain ⟨si, hsi, -⟩ := (h.socket id family p).mp hid
    exact ⟨si, hsi⟩
  · rintro ⟨si, hsi⟩
    obtain ⟨-, family, id, hid⟩ := h.port p si hsi
    exact ⟨id, family, (h.socket id family p).mpr ⟨si, hsi, hid⟩⟩

/-- Of one port, the sockets follow the table. -/
theorem Table.sockets_iff (h : Table s) (h' : Table s') (hp : s'.usedPorts[p]? = s.usedPorts[p]?) :
    s'.sockets id = some (family, p) ↔ s.sockets id = some (family, p) := by
  rw [h.socket, h'.socket, hp]

theorem mem_listed : si ∈ s.listed w ↔ ∃ p : UInt16, s.usedPorts[p]? = some si := by
  unfold listed
  rw [List.mem_filterMap]
  constructor
  · rintro ⟨p, -, hp⟩
    exact ⟨p, hp⟩
  · rintro ⟨p, hp⟩
    refine ⟨p, (w.perm _).mem_iff.mpr (ExtTreeMap.mem_keys.mpr ?_), hp⟩
    exact mem_usedPorts.mpr ⟨si, hp⟩

theorem Table.mem_ports (h : Table s) : p ∈ (s.listed w).map SocketInformation.port ↔ p ∈ s.usedPorts := by
  rw [List.mem_map, mem_usedPorts]
  constructor
  · rintro ⟨si, hsi, rfl⟩
    obtain ⟨q, hq⟩ := mem_listed.mp hsi
    obtain ⟨rfl, -⟩ := h.port q si hq
    exact ⟨si, hq⟩
  · rintro ⟨si, hsi⟩
    exact ⟨si, mem_listed.mpr ⟨p, hsi⟩, (h.port p si hsi).1⟩

/-! ## Sockets that are opened and closed -/

/-- All but the table, the sockets and the listeners. -/
structure Same (s s' : ListenThreads) : Prop where
  fast : s'.fastRebooting = s.fastRebooting
  committing : s'.committingFastReboot = s.committingFastReboot
  toAdd : s'.frPortsToAdd = s.frPortsToAdd
  toRemove : s'.frPortsToRemove = s.frPortsToRemove

theorem Same.refl (s : ListenThreads) : Same s s := ⟨rfl, rfl, rfl, rfl⟩

theorem Same.trans {s'' : ListenThreads} (h : Same s s') (h' : Same s' s'') : Same s s'' :=
  ⟨h'.fast.trans h.fast, h'.committing.trans h.committing, h'.toAdd.trans h.toAdd, h'.toRemove.trans h.toRemove⟩

/-- At most one socket was opened for the port. -/
structure Opened (family : Family) (port : UInt16) (s : ListenThreads) (r : Option Nat × ListenThreads) : Prop where
  same : Same s r.2
  usedPorts : r.2.usedPorts = s.usedPorts
  listeners : r.2.listeners = s.listeners
  fresh : ∀ id ≥ r.2.next, r.2.sockets id = none
  sockets : ∀ id x, r.2.sockets id = some x ↔ s.sockets id = some x ∨ x = (family, port) ∧ r.1 = some id

theorem opened_none (hfresh : ∀ id ≥ s.next, s.sockets id = none) : Opened family port s (none, s) :=
  ⟨Same.refl s, rfl, rfl, hfresh, fun id x => by simp⟩

theorem openSocket_opened (hfresh : ∀ id ≥ s.next, s.sockets id = none) :
    Opened family port s (s.openSocket w family port) := by
  unfold openSocket
  split_ifs
  · refine ⟨⟨rfl, rfl, rfl, rfl⟩, rfl, rfl, fun id hid => ?_, fun id x => ?_⟩
    · dsimp only at hid ⊢
      rw [Function.update_of_ne (by omega)]
      exact hfresh id (by omega)
    · dsimp only
      by_cases hid : id = s.next
      · subst hid
        rw [Function.update_self, hfresh _ le_rfl]
        simp [eq_comm]
      · rw [Function.update_of_ne hid]
        simp [Ne.symm hid]
  · exact opened_none hfresh

theorem mem_registered : id ∈ si.ipv6.toList ++ si.ipv4.toList ↔ ∃ family, si.socket family = some id := by
  rw [List.mem_append, Option.mem_toList, Option.mem_toList]
  constructor
  · rintro (h | h)
    · exact ⟨.ipv6, h⟩
    · exact ⟨.ipv4, h⟩
  · rintro ⟨family, h⟩
    cases family with
    | ipv4 => exact Or.inr h
    | ipv6 => exact Or.inl h

/-- The sockets of these ports were registered. -/
def Registered (ports : List UInt16) (s s' : ListenThreads) : Prop :=
  ∃ ids, s'.listeners = ids ++ s.listeners ∧
    ∀ id, id ∈ ids ↔ ∃ p ∈ ports, ∃ family, s'.sockets id = some (family, p)

/-- These ports were added to the table, and nothing else changed. -/
structure Added (ports : List UInt16) (s s' : ListenThreads) : Prop where
  table : Table s'
  same : Same s s'
  others : ∀ p ∉ ports, s'.usedPorts[p]? = s.usedPorts[p]?
  registered : Registered ports s s'

/-- The sockets of `si` were opened, and its port is not in the table yet. -/
structure Sockets (si : SocketInformation) (s s' : ListenThreads) : Prop where
  same : Same s s'
  usedPorts : s'.usedPorts = s.usedPorts
  listeners : s'.listeners = s.listeners
  fresh : ∀ id ≥ s'.next, s'.sockets id = none
  sockets : ∀ id family q, s'.sockets id = some (family, q) ↔
    s.sockets id = some (family, q) ∨ q = si.port ∧ si.socket family = some id

theorem Opened.sockets_both {ipv4 ipv6 : Option Nat} {s₄ s₆ : ListenThreads}
    (h : Opened .ipv4 port s (ipv4, s₄)) (h' : Opened .ipv6 port s₄ (ipv6, s₆)) :
    Sockets ⟨ipv4, ipv6, port⟩ s s₆ := by
  refine ⟨h.same.trans h'.same, h'.usedPorts.trans h.usedPorts, h'.listeners.trans h.listeners, h'.fresh, ?_⟩
  intro id family q
  rw [h'.sockets, h.sockets]
  cases family <;> simp [SocketInformation.socket]

theorem Table.sockets_ne (h : Table s) (hport : port ∉ s.usedPorts) (id : Nat) (family : Family) :
    s.sockets id ≠ some (family, port) :=
  fun hid => hport (h.listens_iff.mp ⟨id, family, hid⟩)

/-- Without a socket nothing is put into the table. -/
theorem Sockets.added_none (hopen : Sockets ⟨none, none, port⟩ s s') (h : Table s) (hport : port ∉ s.usedPorts) :
    Added [port] s s' := by
  have hold : ∀ id family q, s'.sockets id = some (family, q) ↔ s.sockets id = some (family, q) := by
    intro id family q
    rw [hopen.sockets]
    cases family <;> simp [SocketInformation.socket]
  refine ⟨⟨?_, ?_, hopen.fresh⟩, hopen.same, fun q _ => by rw [hopen.usedPorts], [], hopen.listeners, ?_⟩
  · rw [hopen.usedPorts]
    exact h.port
  · intro id family q
    rw [hopen.usedPorts, hold]
    exact h.socket id family q
  · intro id
    simp [hold, h.sockets_ne hport]

theorem Sockets.getElem?_insert (hopen : Sockets si s s') (q : UInt16) :
    (s'.usedPorts.insert si.port si)[q]? = if si.port = q then some si else s.usedPorts[q]? := by
  rw [OrdMap.getElem?_put, hopen.usedPorts]

theorem Sockets.added (hopen : Sockets si s s') (h : Table s) (hport : si.port ∉ s.usedPorts)
    (hsome : ∃ family id, si.socket family = some id) :
    Added [si.port] s ({ s' with usedPorts := s'.usedPorts.insert si.port si }.registerListener si) := by
  have hsame := hopen.same
  refine ⟨⟨?_, ?_, hopen.fresh⟩, ⟨hsame.fast, hsame.committing, hsame.toAdd, hsame.toRemove⟩, ?_,
    si.ipv6.toList ++ si.ipv4.toList, ?_, ?_⟩
  · intro q si' hsi
    change (s'.usedPorts.insert si.port si)[q]? = some si' at hsi
    rw [hopen.getElem?_insert] at hsi
    split_ifs at hsi with hq
    · obtain rfl := Option.some.inj hsi
      exact ⟨hq, hsome⟩
    · exact h.port q si' hsi
  · intro id family q
    change s'.sockets id = some (family, q) ↔
      ∃ si', (s'.usedPorts.insert si.port si)[q]? = some si' ∧ si'.socket family = some id
    rw [hopen.sockets, hopen.getElem?_insert, h.socket]
    split_ifs with hq
    · subst hq
      have hnone : s.usedPorts[si.port]? = none := ExtTreeMap.getElem?_eq_none hport
      simp [hnone]
    · simp [Ne.symm hq]
  · intro q hq
    change (s'.usedPorts.insert si.port si)[q]? = _
    rw [hopen.getElem?_insert, if_neg fun hpq => hq (List.mem_singleton.mpr hpq.symm)]
  · change si.ipv6.toList ++ (si.ipv4.toList ++ s'.listeners) = _
    rw [hopen.listeners, List.append_assoc]
  · intro id
    change _ ↔ ∃ p ∈ [si.port], ∃ family, s'.sockets id = some (family, p)
    rw [mem_registered]
    simp only [List.mem_singleton, exists_eq_left, hopen.sockets, h.sockets_ne hport, true_and, false_or]

/-- **A new port gets its sockets,** if it can have any. -/
theorem createServerAndListener_spec (h : Table s) (hport : port ∉ s.usedPorts) (hfast : s.fastRebooting = false) :
    Added [port] s (s.createServerAndListener w port) ∧
      ((∀ family, w.bind family port = true) → port ∈ (s.createServerAndListener w port).usedPorts) := by
  have hfirst : Opened .ipv4 port s (s.openSocket w .ipv4 port) := openSocket_opened h.fresh
  have hbound : w.bind .ipv4 port = true → (s.openSocket w .ipv4 port).1 ≠ none := by
    intro hbind
    rw [openSocket, if_pos hbind]
    nofun
  unfold createServerAndListener
  rw [if_neg (by rw [hfast]; decide)]
  generalize s.openSocket w .ipv4 port = first at hfirst hbound
  obtain ⟨ipv4, s₄⟩ := first
  have hsecond : Opened .ipv6 port s₄ (if w.haveIpv6 then s₄.openSocket w .ipv6 port else (none, s₄)) := by
    split_ifs
    · exact openSocket_opened hfirst.fresh
    · exact opened_none hfirst.fresh
  dsimp only
  generalize (if w.haveIpv6 then s₄.openSocket w .ipv6 port else (none, s₄)) = second at hsecond
  obtain ⟨ipv6, s₆⟩ := second
  have hopen := hfirst.sockets_both hsecond
  dsimp only
  split_ifs with hnone
  · obtain ⟨rfl, rfl⟩ := hnone
    exact ⟨hopen.added_none h hport, fun hbind => absurd rfl (hbound (hbind .ipv4))⟩
  · have hsome : ∃ family id, (⟨ipv4, ipv6, port⟩ : SocketInformation).socket family = some id := by
      by_cases h₄ : ipv4 = none
      · obtain ⟨id, hid⟩ := Option.ne_none_iff_exists'.mp fun h₆ => hnone ⟨h₄, h₆⟩
        exact ⟨.ipv6, id, hid⟩
      · obtain ⟨id, hid⟩ := Option.ne_none_iff_exists'.mp h₄
        exact ⟨.ipv4, id, hid⟩
    exact ⟨hopen.added h hport hsome, fun _ => OrdMap.mem_put.mpr (Or.inl rfl)⟩

theorem Added.refl (h : Table s) : Added [] s s :=
  ⟨h, Same.refl s, fun _ _ => rfl, [], rfl, fun id => by simp⟩

theorem Added.trans {ports ports' : List UInt16} {s'' : ListenThreads} (h : Added ports s s')
    (h' : Added ports' s' s'') (hdisjoint : ∀ p ∈ ports, p ∉ ports') : Added (ports ++ ports') s s'' := by
  refine ⟨h'.table, h.same.trans h'.same, fun p hp => ?_, ?_⟩
  · rw [List.mem_append, not_or] at hp
    rw [h'.others p hp.2, h.others p hp.1]
  · obtain ⟨ids, hids, hmem⟩ := h.registered
    obtain ⟨ids', hids', hmem'⟩ := h'.registered
    refine ⟨ids' ++ ids, by rw [hids', hids, List.append_assoc], fun id => ?_⟩
    rw [List.mem_append, hmem, hmem']
    simp only [List.mem_append, or_and_right, exists_or]
    rw [or_comm]
    refine or_congr_left (exists_congr fun p => and_congr_right fun hp => exists_congr fun family => ?_)
    exact (h.table.sockets_iff h'.table (h'.others p (hdisjoint p hp))).symm

theorem addAll_spec (h : Table s) (hfast : s.fastRebooting = false) {ports : List UInt16} (hnodup : ports.Nodup)
    (hnew : ∀ p ∈ ports, p ∉ s.usedPorts) :
    Added ports s (ports.foldl (createServerAndListener w) s) ∧
      ((∀ family port, w.bind family port = true) →
        ∀ p ∈ ports, p ∈ (ports.foldl (createServerAndListener w) s).usedPorts) := by
  induction ports generalizing s with
  | nil => exact ⟨Added.refl h, fun _ => nofun⟩
  | cons port ports ih =>
    obtain ⟨hport, hnodup⟩ := List.nodup_cons.mp hnodup
    obtain ⟨hnew, hrest⟩ := List.forall_mem_cons.mp hnew
    obtain ⟨hadded, hused⟩ := @createServerAndListener_spec w s port h hnew hfast
    have hsame : ∀ p ∈ ports, p ∉ (s.createServerAndListener w port).usedPorts := by
      intro p hp
      have hne : p ∉ [port] := fun hmem => hport (List.mem_singleton.mp hmem ▸ hp)
      rw [mem_usedPorts, hadded.others p hne, ← mem_usedPorts]
      exact hrest p hp
    obtain ⟨hall, hmem⟩ := ih hadded.table (hadded.same.fast.trans hfast) hnodup hsame
    have hdisjoint : ∀ p ∈ [port], p ∉ ports := fun p hp => List.mem_singleton.mp hp ▸ hport
    refine ⟨hadded.trans hall hdisjoint, fun hbind => List.forall_mem_cons.mpr ⟨?_, hmem hbind⟩⟩
    rw [List.foldl_cons, mem_usedPorts, hall.others port hport, ← mem_usedPorts]
    exact hused fun family => hbind family port

/-! ## The loops over ports of the table -/

theorem registerAll_spec (l : List SocketInformation) (s : ListenThreads) :
    ∃ ids, l.foldl registerListener s = { s with listeners := ids ++ s.listeners } ∧
      ∀ id, id ∈ ids ↔ ∃ si ∈ l, ∃ family, si.socket family = some id := by
  induction l generalizing s with
  | nil => exact ⟨[], rfl, fun id => by simp⟩
  | cons si l ih =>
    obtain ⟨ids, hrun, hmem⟩ := ih (s.registerListener si)
    refine ⟨ids ++ (si.ipv6.toList ++ si.ipv4.toList), ?_, fun id => ?_⟩
    · rw [List.foldl_cons, hrun]
      simp [registerListener]
    · rw [List.mem_append, hmem, mem_registered, List.exists_mem_cons_iff, or_comm]

theorem registerPorts_spec (h : Table s) {ports : List UInt16} (hused : ∀ p ∈ ports, p ∈ s.usedPorts) :
    ∃ ids, ports.foldlM registerPort s = some { s with listeners := ids ++ s.listeners } ∧
      ∀ id, id ∈ ids ↔ ∃ p ∈ ports, ∃ family, s.sockets id = some (family, p) := by
  induction ports generalizing s with
  | nil => exact ⟨[], rfl, fun id => by simp⟩
  | cons port ports ih =>
    obtain ⟨hport, hused⟩ := List.forall_mem_cons.mp hused
    obtain ⟨si, hsi⟩ := mem_usedPorts.mp hport
    have hstep : registerPort s port = some (s.registerListener si) := by rw [registerPort, hsi]; rfl
    have htable : Table (s.registerListener si) := ⟨h.port, h.socket, h.fresh⟩
    obtain ⟨ids, hrun, hmem⟩ := ih htable hused
    refine ⟨ids ++ (si.ipv6.toList ++ si.ipv4.toList), ?_, fun id => ?_⟩
    · rw [List.foldlM_cons, hstep]
      simpa [registerListener] using hrun
    · rw [List.mem_append, hmem, mem_registered, List.exists_mem_cons_iff, or_comm]
      refine or_congr (exists_congr fun family => ?_) Iff.rfl
      rw [h.socket, hsi]
      simp

theorem dropPorts_spec {ports : List UInt16} (hnodup : ports.Nodup) (hused : ∀ p ∈ ports, p ∈ s.usedPorts)
    (hport : ∀ p (si : SocketInformation), s.usedPorts[p]? = some si → si.port = p) :
    ∃ removed table, ports.foldlM dropPort s =
        some { s with frPortsToRemove := s.frPortsToRemove ++ removed, usedPorts := table } ∧
      (∀ si, si ∈ removed ↔ ∃ p ∈ ports, s.usedPorts[p]? = some si) ∧
      ∀ p : UInt16, table[p]? = if p ∈ ports then none else s.usedPorts[p]? := by
  induction ports generalizing s with
  | nil => exact ⟨[], s.usedPorts, by simp, fun si => by simp, fun p => by simp⟩
  | cons port ports ih =>
    obtain ⟨hnew, hrest⟩ := List.nodup_cons.mp hnodup
    obtain ⟨hmem, hothers⟩ := List.forall_mem_cons.mp hused
    obtain ⟨si, hsi⟩ := mem_usedPorts.mp hmem
    obtain rfl := hport port si hsi
    have hstep : dropPort s si.port =
        some { s with frPortsToRemove := s.frPortsToRemove ++ [si], usedPorts := s.usedPorts.erase si.port } := by
      rw [dropPort, hsi]
      rfl
    have hcut : ∀ p : UInt16, (s.usedPorts.erase si.port)[p]? = if si.port = p then none else s.usedPorts[p]? :=
      fun p => OrdMap.getElem?_cut s.usedPorts si.port p
    have hcut' : ∀ p ∈ ports, (s.usedPorts.erase si.port)[p]? = s.usedPorts[p]? := by
      intro p hp
      rw [hcut, if_neg]
      rintro rfl
      exact hnew hp
    obtain ⟨removed, table, hrun, hremoved, htable⟩ := @ih
      { s with frPortsToRemove := s.frPortsToRemove ++ [si], usedPorts := s.usedPorts.erase si.port } hrest
      (fun p hp => by
        rw [mem_usedPorts]
        change ∃ si', (s.usedPorts.erase si.port)[p]? = some si'
        rw [hcut' p hp, ← mem_usedPorts]
        exact hothers p hp)
      (fun p si' h => by
        change (s.usedPorts.erase si.port)[p]? = some si' at h
        rw [hcut] at h
        split_ifs at h
        exact hport p si' h)
    refine ⟨si :: removed, table, ?_, fun si' => ?_, fun p => ?_⟩
    · rw [List.foldlM_cons, hstep]
      simpa using hrun
    · rw [List.mem_cons, hremoved, List.exists_mem_cons_iff, hsi]
      refine or_congr (by rw [Option.some_inj, eq_comm]) (exists_congr fun p => and_congr_right fun hp => ?_)
      rw [← hcut' p hp]
    · rw [htable]
      change (if p ∈ ports then none else (s.usedPorts.erase si.port)[p]?) = _
      rw [hcut]
      by_cases hp : p = si.port
      · simp [hp]
      · simp [hp, Ne.symm hp]

theorem close_spec (si : SocketInformation) (s : ListenThreads) :
    s.close si = { s with sockets := (s.close si).sockets } ∧
      ∀ id x, (s.close si).sockets id = some x ↔ s.sockets id = some x ∧ ∀ family, si.socket family ≠ some id := by
  have hone : ∀ (socket : Option Nat) (s : ListenThreads),
      s.closeSocket socket = { s with sockets := (s.closeSocket socket).sockets } ∧
        ∀ id x, (s.closeSocket socket).sockets id = some x ↔ s.sockets id = some x ∧ socket ≠ some id := by
    intro socket s
    cases socket with
    | none => exact ⟨rfl, fun id x => by simp [closeSocket]⟩
    | some n =>
      refine ⟨rfl, fun id x => ?_⟩
      by_cases hid : id = n
      · simp [closeSocket, hid]
      · simp [closeSocket, hid, Ne.symm hid]
  obtain ⟨hfirst, hsockets⟩ := hone si.ipv4 s
  obtain ⟨hsecond, hsockets'⟩ := hone si.ipv6 (s.closeSocket si.ipv4)
  refine ⟨?_, fun id x => ?_⟩
  · unfold close
    rw [hsecond, hfirst]
  · rw [close, hsockets', hsockets, and_assoc]
    refine and_congr_right fun _ => ⟨fun h family => ?_, fun h => ⟨h .ipv4, h .ipv6⟩⟩
    cases family with
    | ipv4 => exact h.1
    | ipv6 => exact h.2

theorem closeAll_spec (l : List SocketInformation) (s : ListenThreads) :
    l.foldl close s = { s with sockets := (l.foldl close s).sockets } ∧
      ∀ id x, (l.foldl close s).sockets id = some x ↔
        s.sockets id = some x ∧ ∀ si ∈ l, ∀ family, si.socket family ≠ some id := by
  induction l generalizing s with
  | nil => exact ⟨rfl, fun id x => by simp⟩
  | cons si l ih =>
    obtain ⟨hone, hsockets⟩ := close_spec si s
    obtain ⟨hall, hsockets'⟩ := ih (s.close si)
    refine ⟨?_, fun id x => ?_⟩
    · rw [List.foldl_cons, hall, hone]
    · rw [List.foldl_cons, hsockets', hsockets, List.forall_mem_cons, and_assoc]

/-- What is left when all listeners of these ports are closed. -/
theorem Table.closed (h : Table s) {ports : List UInt16} {removed : List SocketInformation}
    {table : OrdMap UInt16 SocketInformation} {sockets : Nat → Option (Family × UInt16)}
    (hremoved : ∀ si, si ∈ removed ↔ ∃ p ∈ ports, s.usedPorts[p]? = some si)
    (htable : ∀ p : UInt16, table[p]? = if p ∈ ports then none else s.usedPorts[p]?)
    (hsockets : ∀ id x, sockets id = some x ↔
      s.sockets id = some x ∧ ∀ si ∈ removed, ∀ family, si.socket family ≠ some id)
    (hused : s'.usedPorts = table) (hopen : s'.sockets = sockets) (hnext : s'.next = s.next) : Table s' := by
  refine ⟨fun p si hsi => ?_, fun id family p => ?_, fun id hid => ?_⟩
  · rw [hused, htable] at hsi
    split_ifs at hsi
    exact h.port p si hsi
  · rw [hused, hopen, hsockets, htable, h.socket]
    constructor
    · rintro ⟨⟨si, hsi, hid⟩, hclosed⟩
      have hp : p ∉ ports := fun hp => hclosed si ((hremoved si).mpr ⟨p, hp, hsi⟩) family hid
      exact ⟨si, by rw [if_neg hp]; exact hsi, hid⟩
    · rintro ⟨si, hsi, hid⟩
      split_ifs at hsi with hp
      refine ⟨⟨si, hsi, hid⟩, fun si' hsi' family' hid' => hp ?_⟩
      -- A socket belongs to one port only.
      obtain ⟨q, hq, hsi'⟩ := (hremoved si').mp hsi'
      have hsocket := (h.socket id family p).mpr ⟨si, hsi, hid⟩
      rw [(h.socket id family' q).mpr ⟨si', hsi', hid'⟩] at hsocket
      obtain ⟨-, rfl⟩ := Prod.mk.inj (Option.some.inj hsocket)
      exact hq
  · rw [hopen, Option.eq_none_iff_forall_ne_some]
    intro x hx
    have hnone := h.fresh id (hnext ▸ hid)
    rw [((hsockets id x).mp hx).1] at hnone
    cases hnone

/-! ## Whole reboots -/

/-- Between two reboots nothing is noted. -/
structure Idle (s : ListenThreads) : Prop where
  table : Table s
  fast : s.fastRebooting = false
  committing : s.committingFastReboot = false
  toAdd : s.frPortsToAdd = []
  toRemove : s.frPortsToRemove = []

theorem addAll_noted (hfast : s.fastRebooting = true) (ports : List UInt16) :
    ports.foldl (addListeningThread w) s = { s with frPortsToAdd := s.frPortsToAdd ++ ports } := by
  induction ports generalizing s with
  | nil => simp
  | cons port ports ih =>
    have hnoted : s.addListeningThread w port = { s with frPortsToAdd := s.frPortsToAdd ++ [port] } := by
      simp [addListeningThread, createServerAndListener, hfast]
    rw [List.foldl_cons, hnoted]
    refine Eq.trans (ih ?_) ?_
    · exact hfast
    · simp

/-- Up to its end, a reboot notes the ports only. -/
theorem rebooting_eq (h : Idle s) (ports : List UInt16) :
    s.rebooting w ports = { s with fastRebooting := true, shutdownStatus := false, frPortsToAdd := ports } := by
  rw [rebooting, addAll_noted (by simp [init, terminate, beginFastReboot])]
  simp [init, terminate, beginFastReboot, h.toAdd]

theorem Registered.served {ports : List UInt16} (h : Registered ports s s')
    (hall : ∀ id family p, s'.sockets id = some (family, p) → p ∈ ports) : Served s s' := by
  obtain ⟨ids, hids, hmem⟩ := h
  refine ⟨ids, hids, fun id => ?_⟩
  rw [hmem, Option.ne_none_iff_exists']
  constructor
  · rintro ⟨p, -, family, hid⟩
    exact ⟨(family, p), hid⟩
  · rintro ⟨⟨family, p⟩, hid⟩
    exact ⟨p, hall id family p hid, family, hid⟩

theorem Idle.registered (h : Idle s) (ids : List Nat) (status : Bool) :
    Idle { s with shutdownStatus := status, listeners := ids } :=
  ⟨⟨h.table.port, h.table.socket, h.table.fresh⟩, h.fast, h.committing, h.toAdd, h.toRemove⟩

/-- **A rollback gives the scheduler the table again,** and keeps the rest. -/
theorem rollbackFastReboot_spec (h : Idle s) (ports : List UInt16) :
    Idle ((s.rebooting w ports).rollbackFastReboot w) ∧ RolledBack s ((s.rebooting w ports).rollbackFastReboot w) := by
  obtain ⟨ids, hrun, hmem⟩ := registerAll_spec (s.listed w) { s with shutdownStatus := false, frPortsToAdd := ports }
  have heq : (s.rebooting w ports).rollbackFastReboot w =
      { s with shutdownStatus := false, listeners := ids ++ s.listeners } := by
    unfold rollbackFastReboot
    rw [rebooting_eq h]
    simp only [h.fast, h.committing, h.toAdd, h.toRemove] at hrun ⊢
    change { (s.listed w).foldl registerListener _ with frPortsToAdd := [], frPortsToRemove := [] } = _
    rw [hrun]
  rw [heq]
  refine ⟨h.registered _ _, fun _ => Iff.rfl, ⟨rfl, rfl⟩, ids, rfl, fun id => ?_⟩
  rw [hmem, Option.ne_none_iff_exists']
  constructor
  · rintro ⟨si, hsi, family, hid⟩
    obtain ⟨p, hp⟩ := mem_listed.mp hsi
    exact ⟨(family, p), (h.table.socket id family p).mpr ⟨si, hp, hid⟩⟩
  · rintro ⟨⟨family, p⟩, hid⟩
    obtain ⟨si, hsi, hid⟩ := (h.table.socket id family p).mp hid
    exact ⟨si, mem_listed.mpr ⟨p, hsi⟩, family, hid⟩

/-- What a commit leaves, of the ports that it takes over, adds and drops. -/
structure Exchanged (w : World) (keep add drop : List UInt16) (s s' : ListenThreads) : Prop where
  table : Table s'
  fast : s'.fastRebooting = false
  dropped : ∀ p ∈ drop, p ∉ s'.usedPorts
  others : ∀ p ∉ drop, p ∉ add → s'.usedPorts[p]? = s.usedPorts[p]?
  added : (∀ family port, w.bind family port = true) → ∀ p ∈ add, p ∈ s'.usedPorts
  registered : Registered (keep ++ add) s s'

theorem exchange_spec (h : Table s) (hfast : s.fastRebooting = false) (hcommitting : s.committingFastReboot = true)
    (htoRemove : s.frPortsToRemove = []) {keep add drop : List UInt16} (hkeep : ∀ p ∈ keep, p ∈ s.usedPorts ∧ p ∉ drop)
    (hadd : add.Nodup) (hnew : ∀ p ∈ add, p ∉ s.usedPorts) (hdrop : drop.Nodup) (hold : ∀ p ∈ drop, p ∈ s.usedPorts) :
    ∃ s₁ s₃, keep.foldlM registerPort s = some s₁ ∧
      drop.foldlM dropPort (add.foldl (createServerAndListener w) s₁) = some s₃ ∧
        Exchanged w keep add drop s (s₃.terminate w) := by
  obtain ⟨ids, hrun₁, hids⟩ := registerPorts_spec h fun p hp => (hkeep p hp).1
  have htable₁ : Table { s with listeners := ids ++ s.listeners } := ⟨h.port, h.socket, h.fresh⟩
  obtain ⟨hadded, hbound⟩ := @addAll_spec w _ htable₁ hfast add hadd hnew
  generalize hs₂ : add.foldl (createServerAndListener w) { s with listeners := ids ++ s.listeners } = s₂
    at hadded hbound
  have hdisjoint : ∀ p ∈ drop, p ∉ add := fun p hp hp' => hnew p hp' (hold p hp)
  have hold₂ : ∀ p ∈ drop, p ∈ s₂.usedPorts := by
    intro p hp
    rw [mem_usedPorts, hadded.others p (hdisjoint p hp), ← mem_usedPorts]
    exact hold p hp
  obtain ⟨removed, table, hrun₃, hremoved, hlookup⟩ := dropPorts_spec hdrop hold₂ fun p si hsi =>
    (hadded.table.port p si hsi).1
  have htoRemove₂ : s₂.frPortsToRemove = [] := hadded.same.toRemove.trans htoRemove
  rw [htoRemove₂, List.nil_append] at hrun₃
  have hfast₂ : s₂.fastRebooting = false := hadded.same.fast.trans hfast
  have hcommitting₂ : s₂.committingFastReboot = true := hadded.same.committing.trans hcommitting
  refine ⟨_, { s₂ with frPortsToRemove := removed, usedPorts := table }, hrun₁, hs₂ ▸ hrun₃, ?_⟩
  have hterminate : ({ s₂ with frPortsToRemove := removed, usedPorts := table } : ListenThreads).terminate w =
      removed.foldl close { s₂ with frPortsToRemove := removed, usedPorts := table } := by
    simp [terminate, hfast₂, hcommitting₂]
  obtain ⟨hclosed, hsockets⟩ := closeAll_spec removed { s₂ with frPortsToRemove := removed, usedPorts := table }
  rw [hterminate, hclosed]
  generalize (removed.foldl close { s₂ with frPortsToRemove := removed, usedPorts := table }).sockets = sockets
    at hsockets
  have htable : Table { s₂ with frPortsToRemove := removed, usedPorts := table, sockets := sockets } :=
    hadded.table.closed hremoved hlookup hsockets rfl rfl rfl
  have hkept : ∀ p ∉ drop, table[p]? = s₂.usedPorts[p]? := fun p hp => by rw [hlookup, if_neg hp]
  have hsame : ∀ p ∉ drop, ∀ id family, sockets id = some (family, p) ↔ s₂.sockets id = some (family, p) :=
    fun p hp id family => hadded.table.sockets_iff htable (hkept p hp)
  refine ⟨htable, hfast₂, fun p hp => ?_, fun p hp hp' => ?_, fun hbind p hp => ?_, ?_⟩
  · rw [mem_usedPorts]
    dsimp only
    simp [hlookup, hp]
  · exact (hkept p hp).trans (hadded.others p hp')
  · rw [mem_usedPorts]
    dsimp only
    rw [hkept p fun hp' => hdisjoint p hp' hp, ← mem_usedPorts]
    exact hbound hbind p hp
  · obtain ⟨ids', hids', hmem⟩ := hadded.registered
    refine ⟨ids' ++ ids, by rw [hids', List.append_assoc], fun id => ?_⟩
    rw [List.mem_append, hmem, hids]
    simp only [List.mem_append, or_and_right, exists_or]
    rw [or_comm]
    refine or_congr (exists_congr fun p => and_congr_right fun hp => exists_congr fun family => ?_)
      (exists_congr fun p => and_congr_right fun hp => exists_congr fun family => ?_)
    · rw [hsame p (hkeep p hp).2]
      exact (htable₁.sockets_iff hadded.table (hadded.others p fun hp' => hnew p hp' (hkeep p hp).1)).symm
    · rw [hsame p fun hp' => hdisjoint p hp' hp]

theorem nodup_toList (t : Ports) : t.toList.Nodup := by
  apply List.Pairwise.imp _ ExtTreeSet.distinct_toList
  intro p q h hpq
  exact h (LawfulEqCmp.compare_eq_iff_eq.mpr hpq)

theorem mem_filter_toList {t : Ports} {f : UInt16 → Bool} : p ∈ (t.filter f).toList ↔ p ∈ t ∧ f p = true := by
  rw [ExtTreeSet.mem_toList, ExtTreeSet.mem_filter]
  constructor
  · rintro ⟨hp, hf⟩
    exact ⟨hp, by simpa using hf⟩
  · rintro ⟨hp, hf⟩
    exact ⟨hp, by simpa using hf⟩

theorem mem_ofList {l : List UInt16} : p ∈ (.ofList l : Ports) ↔ p ∈ l := by
  rw [ExtTreeSet.mem_ofList, List.contains_iff_mem]

/-- **A commit takes what is in the table, adds what is not and drops the others.** -/
theorem commit_exchanged (h : Table s) (htoRemove : s.frPortsToRemove = []) :
    ∃ keep add drop s', (∀ p, p ∈ keep ↔ p ∈ s.usedPorts ∧ p ∈ s.frPortsToAdd) ∧
      (∀ p, p ∈ add ↔ p ∈ s.frPortsToAdd ∧ p ∉ s.usedPorts) ∧
      (∀ p, p ∈ drop ↔ p ∈ s.usedPorts ∧ p ∉ s.frPortsToAdd) ∧
      Exchanged w keep add drop { s with fastRebooting := false, committingFastReboot := true } s' ∧
      s.commitFastReboot w =
        some { s' with frPortsToAdd := [], frPortsToRemove := [], committingFastReboot := false } := by
  have htable : Table { s with fastRebooting := false, committingFastReboot := true } := ⟨h.port, h.socket, h.fresh⟩
  unfold commitFastReboot
  dsimp only
  generalize hnewPorts : (.ofList s.frPortsToAdd : Ports) = newPorts
  have hnew : ∀ p, p ∈ newPorts ↔ p ∈ s.frPortsToAdd := fun p => hnewPorts ▸ mem_ofList
  generalize hpresentPorts : (.ofList (List.map SocketInformation.port
    (({ s with fastRebooting := false, committingFastReboot := true } : ListenThreads).listed w)) : Ports) = presentPorts
  have hpresent : ∀ p, p ∈ presentPorts ↔ p ∈ s.usedPorts :=
    fun p => hpresentPorts ▸ mem_ofList.trans htable.mem_ports
  have hkeep : ∀ p, p ∈ (presentPorts.filter newPorts.contains).toList ↔ p ∈ s.usedPorts ∧ p ∈ s.frPortsToAdd := by
    intro p
    rw [mem_filter_toList, hpresent, ExtTreeSet.contains_iff_mem, hnew]
  have hadd : ∀ p, p ∈ (newPorts.filter fun port => !presentPorts.contains port).toList ↔
      p ∈ s.frPortsToAdd ∧ p ∉ s.usedPorts := by
    intro p
    rw [mem_filter_toList, hnew, Bool.not_eq_true', ← Bool.not_eq_true, ExtTreeSet.contains_iff_mem, hpresent]
  have hdrop : ∀ p, p ∈ (presentPorts.filter fun port => !newPorts.contains port).toList ↔
      p ∈ s.usedPorts ∧ p ∉ s.frPortsToAdd := by
    intro p
    rw [mem_filter_toList, hpresent, Bool.not_eq_true', ← Bool.not_eq_true, ExtTreeSet.contains_iff_mem, hnew]
  obtain ⟨s₁, s₃, hrun₁, hrun₃, hexchanged⟩ := @exchange_spec w _ htable rfl rfl htoRemove _ _ _
    (fun p hp => ⟨((hkeep p).mp hp).1, fun hp' => ((hdrop p).mp hp').2 ((hkeep p).mp hp).2⟩) (nodup_toList _)
    (fun p hp => ((hadd p).mp hp).2) (nodup_toList _) (fun p hp => ((hdrop p).mp hp).1)
  refine ⟨_, _, _, s₃.terminate w, hkeep, hadd, hdrop, hexchanged, ?_⟩
  rw [hrun₁, Option.bind_eq_bind, Option.bind_some, hrun₃]
  rfl

theorem commitFastReboot_spec (h : Idle s) (ports : List UInt16) :
    ∃ s', (s.rebooting w ports).commitFastReboot w = some s' ∧ Idle s' ∧
      ((∀ family port, w.bind family port = true) → Committed ports s s') := by
  have htable : Table (s.rebooting w ports) := by
    rw [rebooting_eq h]
    exact ⟨h.table.port, h.table.socket, h.table.fresh⟩
  have htoRemove : (s.rebooting w ports).frPortsToRemove = [] := by
    rw [rebooting_eq h]
    exact h.toRemove
  obtain ⟨keep, add, drop, s', hkeep, hadd, hdrop, hexchanged, hrun⟩ := @commit_exchanged w _ htable htoRemove
  rw [rebooting_eq h] at hkeep hadd hdrop hexchanged
  dsimp only at hkeep hadd hdrop hexchanged
  have htable' : Table { s' with frPortsToAdd := [], frPortsToRemove := [], committingFastReboot := false } :=
    ⟨hexchanged.table.port, hexchanged.table.socket, hexchanged.table.fresh⟩
  refine ⟨_, hrun, ⟨htable', hexchanged.fast, rfl, rfl, rfl⟩, fun hbind => ?_⟩
  have hused : ∀ p, p ∈ s'.usedPorts ↔ p ∈ ports := by
    intro p
    by_cases hdropped : p ∈ drop
    · exact iff_of_false (hexchanged.dropped p hdropped) ((hdrop p).mp hdropped).2
    · by_cases hadded : p ∈ add
      · exact iff_of_true (hexchanged.added hbind p hadded) ((hadd p).mp hadded).1
      · rw [mem_usedPorts, hexchanged.others p hdropped hadded, ← mem_usedPorts]
        rw [hdrop] at hdropped
        rw [hadd] at hadded
        tauto
  have hkept : ∀ p ∈ ports, s.Listens p → s'.usedPorts[p]? = s.usedPorts[p]? := by
    intro p hp hlistens
    rw [h.table.listens_iff] at hlistens
    exact hexchanged.others p (fun hp' => ((hdrop p).mp hp').2 hp) fun hp' => ((hadd p).mp hp').2 hlistens
  refine ⟨fun p => (htable'.listens_iff).trans (hused p), fun p hp hlistens => ⟨hkept p hp hlistens, fun id family =>
    h.table.sockets_iff htable' (hkept p hp hlistens)⟩, hexchanged.registered.served fun id family p hid => ?_⟩
  have hp : p ∈ ports := (hused p).mp (htable'.listens_iff.mp ⟨id, family, hid⟩)
  rw [List.mem_append, hkeep, hadd]
  tauto

theorem idle_new : Idle new :=
  ⟨⟨fun p si h => by simp [new] at h, fun id family p => by simp [new], fun _ _ => rfl⟩, rfl, rfl, rfl, rfl⟩

theorem Idle.add (h : Idle s) (port : UInt16) : Idle (s.addListeningThread w port) := by
  unfold addListeningThread
  split_ifs with hused
  · exact h
  · rw [not_and, h.fast, h.committing] at hused
    obtain ⟨hadded, -⟩ := @createServerAndListener_spec w s port h.table (hused (by decide)) h.fast
    have hsame := hadded.same
    exact ⟨hadded.table, hsame.fast.trans h.fast, hsame.committing.trans h.committing, hsame.toAdd.trans h.toAdd,
      hsame.toRemove.trans h.toRemove⟩

theorem Idle.terminate (h : Idle s) : Idle (s.terminate w) := by
  unfold ListenThreads.terminate
  rw [if_neg (by rw [h.fast]; decide), if_neg (by rw [h.committing]; decide)]
  dsimp only
  obtain ⟨hclosed, hsockets⟩ := closeAll_spec (s.listed w).reverse { s with shutdownStatus := true }
  change Idle { ((s.listed w).reverse.foldl close _) with usedPorts := ∅ }
  rw [hclosed]
  refine ⟨?_, h.fast, h.committing, h.toAdd, h.toRemove⟩
  dsimp only
  refine @Table.closed s _ h.table s.usedPorts.keys _ _ _ ?_ ?_ hsockets rfl rfl rfl
  · intro si
    rw [List.mem_reverse, mem_listed]
    constructor
    · rintro ⟨p, hp⟩
      exact ⟨p, ExtTreeMap.mem_keys.mpr (mem_usedPorts.mpr ⟨si, hp⟩), hp⟩
    · rintro ⟨p, -, hp⟩
      exact ⟨p, hp⟩
  · intro p
    split_ifs with hp
    · simp
    · rw [ExtTreeMap.mem_keys] at hp
      rw [ExtTreeMap.getElem?_eq_none hp]
      simp

/-- **Nothing is noted between the operations of a run.** -/
theorem idle_of_reachable (h : Reachable s) : Idle s := by
  induction h with
  | new => exact idle_new
  | @step s s' w op _ hstep ih =>
    cases op with
    | add port =>
      obtain rfl := Option.some.inj hstep
      exact ih.add port
    | init =>
      obtain rfl := Option.some.inj hstep
      exact ih.registered s.listeners false
    | terminate =>
      obtain rfl := Option.some.inj hstep
      exact ih.terminate
    | reboot ports commit =>
      cases commit with
      | false =>
        obtain rfl := Option.some.inj hstep
        exact (rollbackFastReboot_spec ih ports).1
      | true =>
        obtain ⟨s'', hrun, hidle, -⟩ := @commitFastReboot_spec w _ ih ports
        obtain rfl := Option.some.inj (hstep.symm.trans hrun)
        exact hidle

/-- **A fast reboot, whatever the ports that are in use and asked for.** -/
theorem fastReboot_exact (h : Reachable s) (ports : List UInt16) (hbind : ∀ family port, w.bind family port = true) :
    (∃ s', s.step w (.reboot ports true) = some s' ∧ Committed ports s s') ∧
      ∃ s', s.step w (.reboot ports false) = some s' ∧ RolledBack s s' := by
  have hidle : Idle s := idle_of_reachable h
  obtain ⟨s', hrun, -, hcommitted⟩ := @commitFastReboot_spec w s hidle ports
  exact ⟨⟨s', hrun, hcommitted hbind⟩, _, rfl, (rollbackFastReboot_spec hidle ports).2⟩

def everyPort : World := ⟨true, fun _ _ => true, fun ports => ports, fun _ => .rfl⟩

theorem fastReboot_https :
    (∃ s', ((new.addListeningThread everyPort 80).addListeningThread everyPort 443).step everyPort
        (.reboot [443, 8080, 443] true) = some s' ∧
      Committed [443, 8080, 443] ((new.addListeningThread everyPort 80).addListeningThread everyPort 443) s') ∧
    ∃ s', ((new.addListeningThread everyPort 80).addListeningThread everyPort 443).step everyPort
        (.reboot [443, 8080, 443] false) = some s' ∧
      RolledBack ((new.addListeningThread everyPort 80).addListeningThread everyPort 443) s' :=
  fastReboot_exact (@Reachable.step _ _ everyPort (.add 443) (@Reachable.step _ _ everyPort (.add 80) .new rfl) rfl)
    [443, 8080, 443] fun _ _ => rfl

end MyServer.Listen.ListenThreads
