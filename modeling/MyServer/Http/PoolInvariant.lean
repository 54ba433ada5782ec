import MyServer.Http.ProxyPool

/-!
# The invariant of the pool

Each connection is in one place, and the pool, the requests, the dispatcher and the server agree with that. A
group of facts for each of them, with what an operation on it needs.
-/

namespace MyServer.ProxyPool

variable {threads : Nat}

inductive Loc (threads : Nat)
  | gone
  | pool
  | request (t : Fin threads)
  /-- It waits for the event that deletes it. -/
  | scheduler
  | server

/-- A connection that a request has, at the place of the request. -/
def Place.Fits (events : List Nat) (c : Nat) (con : Connection) : Place → Prop
  | .idle => False
  | .request c' => c' = c ∧ con.toRemove = false ∧ (con.schedulerHandler = false → con.handle ∉ events)
  | .admitted cr | .waiting cr => cr.connection = c ∧ con.toRemove = false ∧ con.schedulerHandler = true
  | .refused c' => c' = c ∧ con.toRemove = true ∧ con.handle ∉ events

theorem Place.Fits.connection {events : List Nat} {c : Nat} {con : Connection} {place : Place}
    (h : place.Fits events c con) : place.connection = some c := by
  cases place with
  | idle => exact h.elim
  | request c' | admitted cr | waiting cr | refused c' => exact congrArg some h.1

def Fits (place : Fin threads → Place) (events : List Nat) (c : Nat) (con : Connection) : Loc threads → Prop
  | .gone => False
  | .pool => con.toRemove = false ∧ con.schedulerHandler = true
  | .request t => (place t).Fits events c con
  | .scheduler => con.toRemove = true
  | .server => con.handle ∉ events

/-- Each connection in memory fits the place where it is. -/
structure Located (memory : Nat → Option Connection) (next : Nat) (place : Fin threads → Place)
    (events : List Nat) (loc : Nat → Loc threads) : Prop where
  fits : ∀ c con, memory c = some con → Fits place events c con (loc c)
  gone : ∀ c, memory c = none → loc c = .gone
  fresh : ∀ c, next ≤ c → memory c = none
  handles : ∀ c c' con con', memory c = some con → memory c' = some con' → con.handle = con'.handle → c = c'

/-- The pool, the requests and the server have those that are with them. -/
structure Views (connections : List ConnectionRecord) (place : Fin threads → Place) (ready : List Nat)
    (loc : Nat → Loc threads) : Prop where
  pool : ∀ cr ∈ connections, loc cr.connection = .pool
  pooled : (connections.map ConnectionRecord.connection).Nodup
  request : ∀ t c, (place t).connection = some c → loc c = .request t
  server : ∀ c ∈ ready, loc c = .server
  ready : ready.Nodup

/-- The handles with an event are those of connections in memory, and so is what the dispatcher is at. -/
structure Armed (memory : Nat → Option Connection) (waiting : Nat → Option Nat) (events : List Nat)
    (delivery : Delivery) : Prop where
  nodup : events.Nodup
  event : ∀ h ∈ events, ∃ c con, waiting h = some c ∧ memory c = some con ∧ con.handle = h
  newData : ∀ h c notice, delivery = .newData h c notice → h ∈ events ∧ waiting h = some c
  removing : ∀ h c, delivery = .removeConnection h c → h ∈ events ∧ waiting h = some c ∧
    ∀ con, memory c = some con → con.toRemove = false ∧ con.schedulerHandler = true

structure Inv (s : Pool threads) (loc : Nat → Loc threads) : Prop where
  defined : s.undefined = false
  bounded : s.connections.length ≤ s.maxKeepAliveConnections
  located : Located s.memory s.next s.place s.events loc
  views : Views s.connections s.place s.ready loc
  armed : Armed s.memory s.waiting s.events s.delivery

theorem inv_new (threads maxKeepAliveConnections : Nat) :
    Inv (Pool.new threads maxKeepAliveConnections) fun _ => .gone where
  defined := rfl
  bounded := Nat.zero_le _
  located := ⟨nofun, fun _ _ => rfl, fun _ _ => rfl, nofun⟩
  views := ⟨nofun, List.nodup_nil, nofun, nofun, List.nodup_nil⟩
  armed := ⟨List.nodup_nil, nofun, nofun, nofun⟩

section Groups

variable {memory memory' : Nat → Option Connection} {next : Nat} {place place' : Fin threads → Place}
  {events events' : List Nat} {loc loc' : Nat → Loc threads} {connections : List ConnectionRecord}
  {connections' : List ConnectionRecord} {ready ready' : List Nat} {waiting waiting' : Nat → Option Nat}
  {delivery : Delivery} {c : Nat} {con : Connection}

theorem Located.alive (h : Located memory next place events loc) (hloc : loc c ≠ .gone) :
    ∃ con, memory c = some con := Option.ne_none_iff_exists'.mp fun hnone => hloc (h.gone c hnone)

/-- Other requests and other events do not matter. -/
theorem Fits.frame {l : Loc threads} (h : Fits place events c con l)
    (hfree : con.handle ∉ events → con.handle ∉ events') (hplace : ∀ t, l = .request t → place' t = place t) :
    Fits place' events' c con l := by
  cases l with
  | gone | pool | scheduler => exact h
  | server => exact hfree h
  | request t =>
    change (place' t).Fits events' c con
    change (place t).Fits events c con at h
    rw [hplace t rfl]
    cases hp : place t with
    | idle | admitted cr | waiting cr =>
      rw [hp] at h
      exact h
    | request d =>
      rw [hp] at h
      exact ⟨h.1, h.2.1, fun hs => hfree (h.2.2 hs)⟩
    | refused d =>
      rw [hp] at h
      exact ⟨h.1, h.2.1, hfree h.2.2⟩

/-- An event for a connection that is to be removed, or has no handler, finds it with the scheduler. -/
theorem Fits.scheduler {l : Loc threads} (h : Fits place events c con l) (hevent : con.handle ∈ events)
    (hflag : con.toRemove = true ∨ con.schedulerHandler = false) : l = .scheduler := by
  cases l with
  | gone => exact h.elim
  | scheduler => rfl
  | server => exact absurd hevent h
  | pool =>
    obtain ⟨hremove, hhandler⟩ := h
    rw [hremove, hhandler] at hflag
    simp at hflag
  | request t =>
    change (place t).Fits events c con at h
    cases hp : place t with
    | idle =>
      rw [hp] at h
      exact h.elim
    | request d =>
      rw [hp] at h
      obtain ⟨-, hremove, hfree⟩ := h
      rcases hflag with hflag | hflag
      · rw [hremove] at hflag
        cases hflag
      · exact absurd hevent (hfree hflag)
    | admitted cr | waiting cr =>
      rw [hp] at h
      obtain ⟨-, hremove, hhandler⟩ := h
      rw [hremove, hhandler] at hflag
      simp at hflag
    | refused d =>
      rw [hp] at h
      exact absurd hevent h.2.2

/-- One connection changes, with the request that has it, and an event of its own may come or go. -/
theorem Located.change (h : Located memory next place events loc) (hcon : memory c = some con)
    (hmemory : ∀ c' ≠ c, memory' c' = memory c') (hloc : ∀ c' ≠ c, loc' c' = loc c')
    (hplace : ∀ t, place' t = place t ∨ ∀ c', (place t).connection = some c' → c' = c)
    (hevents : ∀ g ∈ events', g ∈ events ∨ g = con.handle)
    (hsome : ∀ con', memory' c = some con' → con'.handle = con.handle ∧ Fits place' events' c con' (loc' c))
    (hnone : memory' c = none → loc' c = .gone) : Located memory' next place' events' loc' where
  fits c' con' hcon' := by
    by_cases hc : c' = c
    · subst hc
      exact (hsome con' hcon').2
    · rw [hmemory c' hc] at hcon'
      have hfits := h.fits c' con' hcon'
      have hfree : con'.handle ∉ events → con'.handle ∉ events' := by
        intro hnot hmem
        rcases hevents _ hmem with hmem | hsame
        · exact hnot hmem
        · exact hc (h.handles c' c con' con hcon' hcon hsame)
      rw [hloc c' hc]
      refine hfits.frame hfree (fun t hl => ?_)
      rw [hl] at hfits
      rcases hplace t with hsame | hother
      · exact hsame
      · exact absurd (hother c' (Place.Fits.connection hfits)) hc
  gone c' hnone' := by
    by_cases hc : c' = c
    · subst hc
      exact hnone hnone'
    · rw [hmemory c' hc] at hnone'
      rw [hloc c' hc]
      exact h.gone c' hnone'
  fresh c' hc' := by
    have hold := h.fresh c' hc'
    have hc : c' ≠ c := by
      rintro rfl
      rw [hcon] at hold
      cases hold
    rw [hmemory c' hc]
    exact hold
  handles := by
    have hold : ∀ d d', memory' d = some d' → ∃ e, memory d = some e ∧ e.handle = d'.handle := by
      intro d d' hd
      by_cases hdc : d = c
      · subst hdc
        exact ⟨con, hcon, (hsome d' hd).1.symm⟩
      · exact ⟨d', (hmemory d hdc).symm.trans hd, rfl⟩
    intro d d' e e' hd hd' hsame
    obtain ⟨f, hf, hfe⟩ := hold d e hd
    obtain ⟨f', hf', hfe'⟩ := hold d' e' hd'
    exact h.handles d d' f f' hf hf' (by rw [hfe, hfe', hsame])

theorem Located.write (h : Located memory next place events loc) (hcon : memory c = some con) {con' : Connection}
    {l : Loc threads} (hhandle : con'.handle = con.handle)
    (hplace : ∀ t, place' t = place t ∨ ∀ c', (place t).connection = some c' → c' = c)
    (hevents : ∀ g ∈ events', g ∈ events ∨ g = con.handle) (hfits : Fits place' events' c con' l) :
    Located (Function.update memory c (some con')) next place' events' (Function.update loc c l) := by
  refine h.change hcon (fun c' hc => Function.update_of_ne hc ..) (fun c' hc => Function.update_of_ne hc ..) hplace
    hevents (fun d hd => ?_) (fun hnone => ?_)
  · rw [Function.update_self] at hd ⊢
    cases hd
    exact ⟨hhandle, hfits⟩
  · rw [Function.update_self] at hnone
    cases hnone

theorem Located.move (h : Located memory next place events loc) (hcon : memory c = some con) {l : Loc threads}
    (hplace : ∀ t, place' t = place t ∨ ∀ c', (place t).connection = some c' → c' = c)
    (hevents : ∀ g ∈ events', g ∈ events ∨ g = con.handle) (hfits : Fits place' events' c con l) :
    Located memory next place' events' (Function.update loc c l) := by
  have hwrite := h.write hcon rfl hplace hevents hfits
  rwa [← hcon, Function.update_eq_self] at hwrite

theorem Located.delete (h : Located memory next place events loc) (hcon : memory c = some con)
    (hevents : ∀ g ∈ events', g ∈ events ∨ g = con.handle) :
    Located (Function.update memory c none) next place events' (Function.update loc c .gone) := by
  refine h.change hcon (fun c' hc => Function.update_of_ne hc ..) (fun c' hc => Function.update_of_ne hc ..)
    (fun _ => Or.inl rfl) hevents (fun d hd => ?_) (fun _ => Function.update_self ..)
  rw [Function.update_self] at hd
  cases hd

theorem Located.fewer (h : Located memory next place events loc) (hevents : ∀ g ∈ events', g ∈ events) :
    Located memory next place events' loc :=
  ⟨fun c con hcon => (h.fits c con hcon).frame (fun hnot hmem => hnot (hevents _ hmem)) fun _ _ => rfl, h.gone,
    h.fresh, h.handles⟩

/-- A connection that is new, for a request that has none. -/
theorem Located.create (h : Located memory next place events loc) {t : Fin threads} (ht : place t = .idle)
    (hfree : con.handle ∉ events) (hopen : ∀ c' con', memory c' = some con' → con'.handle ≠ con.handle)
    (hremove : con.toRemove = false) :
    Located (Function.update memory next (some con)) (next + 1) (Function.update place t (.request next)) events
      (Function.update loc next (.request t)) where
  fits c' con' hcon' := by
    by_cases hc : c' = next
    · subst hc
      rw [Function.update_self] at hcon' ⊢
      cases hcon'
      change (Function.update place t (.request c') t).Fits events c' con
      rw [Function.update_self]
      exact ⟨rfl, hremove, fun _ => hfree⟩
    · rw [Function.update_of_ne hc] at hcon' ⊢
      have hfits := h.fits c' con' hcon'
      cases hl : loc c' with
      | request t' =>
        rw [hl] at hfits
        have ht' : t' ≠ t := by
          rintro rfl
          change (place t').Fits events c' con' at hfits
          rw [ht] at hfits
          exact hfits
        change (Function.update place t (.request next) t').Fits events c' con'
        rw [Function.update_of_ne ht']
        exact hfits
      | gone | pool | scheduler | server =>
        rw [hl] at hfits
        exact hfits
  gone c' hnone := by
    have hc : c' ≠ next := by
      rintro rfl
      rw [Function.update_self] at hnone
      cases hnone
    rw [Function.update_of_ne hc] at hnone ⊢
    exact h.gone c' hnone
  fresh c' hc' := by
    rw [Function.update_of_ne (by omega)]
    exact h.fresh c' (by omega)
  handles d d' e e' hd hd' hsame := by
    by_cases hdn : d = next <;> by_cases hdn' : d' = next
    · rw [hdn, hdn']
    · rw [hdn, Function.update_self] at hd
      rw [Function.update_of_ne hdn'] at hd'
      cases hd
      exact absurd hsame.symm (hopen d' e' hd')
    · rw [Function.update_of_ne hdn] at hd
      rw [hdn', Function.update_self] at hd'
      cases hd'
      exact absurd hsame (hopen d e hd)
    · rw [Function.update_of_ne hdn] at hd
      rw [Function.update_of_ne hdn'] at hd'
      exact h.handles d d' e e' hd hd' hsame

/-- What the views have is the connection that changes, or what they had. -/
theorem Views.change (h : Views connections place ready loc) (hloc : ∀ c' ≠ c, loc' c' = loc c')
    (hpool : ∀ cr ∈ connections', cr.connection = c ∧ loc' c = .pool ∨ cr.connection ≠ c ∧ cr ∈ connections)
    (hpooled : (connections'.map ConnectionRecord.connection).Nodup)
    (hrequest : ∀ t d, (place' t).connection = some d →
      d = c ∧ loc' c = .request t ∨ d ≠ c ∧ (place t).connection = some d)
    (hserver : ∀ d ∈ ready', d = c ∧ loc' c = .server ∨ d ≠ c ∧ d ∈ ready) (hready : ready'.Nodup) :
    Views connections' place' ready' loc' where
  pool cr hcr := by
    rcases hpool cr hcr with ⟨hc, hl⟩ | ⟨hc, hold⟩
    · rw [hc, hl]
    · rw [hloc _ hc, h.pool cr hold]
  pooled := hpooled
  request t d hd := by
    rcases hrequest t d hd with ⟨rfl, hl⟩ | ⟨hc, hold⟩
    · exact hl
    · rw [hloc d hc, h.request t d hold]
  server d hd := by
    rcases hserver d hd with ⟨rfl, hl⟩ | ⟨hc, hold⟩
    · exact hl
    · rw [hloc d hc, h.server d hold]
  ready := hready

section Others

variable {P : Prop}

theorem Views.pool_other (h : Views connections place ready loc) (hc : loc c ≠ .pool) :
    ∀ cr ∈ connections, cr.connection = c ∧ P ∨ cr.connection ≠ c ∧ cr ∈ connections := by
  refine fun cr hcr => Or.inr ⟨?_, hcr⟩
  rintro rfl
  exact hc (h.pool cr hcr)

theorem Views.request_other (h : Views connections place ready loc) (hc : ∀ t, loc c ≠ .request t)
    {R : Fin threads → Prop} : ∀ t d, (place t).connection = some d →
      d = c ∧ R t ∨ d ≠ c ∧ (place t).connection = some d := by
  refine fun t d hd => Or.inr ⟨?_, hd⟩
  rintro rfl
  exact hc t (h.request t d hd)

theorem Views.server_other (h : Views connections place ready loc) (hc : loc c ≠ .server) :
    ∀ d ∈ ready, d = c ∧ P ∨ d ≠ c ∧ d ∈ ready := by
  refine fun d hd => Or.inr ⟨?_, hd⟩
  rintro rfl
  exact hc (h.server d hd)

theorem Views.pool_erase (h : Views connections place ready loc) {cr : ConnectionRecord} (hcr : cr ∈ connections) :
    ∀ r ∈ connections.erase cr, r.connection = cr.connection ∧ P ∨ r.connection ≠ cr.connection ∧ r ∈ connections := by
  intro r hr
  obtain ⟨hne, hmem⟩ := h.pooled.of_map.mem_erase_iff.mp hr
  exact Or.inr ⟨fun hsame => hne (List.inj_on_of_nodup_map h.pooled hmem hcr hsame), hmem⟩

theorem Views.pooled_erase (h : Views connections place ready loc) (cr : ConnectionRecord) :
    ((connections.erase cr).map ConnectionRecord.connection).Nodup :=
  h.pooled.sublist (List.erase_sublist.map _)

/-- The request of one thread changes, from none or the connection at hand. -/
theorem Views.request_goes (h : Views connections place ready loc) {t : Fin threads} {p : Place}
    (hold : (place t).connection = none ∨ (place t).connection = some c)
    (hc : ∀ t' ≠ t, loc c ≠ .request t') (hnew : p.connection = none ∨ p.connection = some c ∧ loc' c = .request t) :
    ∀ t' d, (Function.update place t p t').connection = some d →
      d = c ∧ loc' c = .request t' ∨ d ≠ c ∧ (place t').connection = some d := by
  intro t' d hd
  by_cases ht : t' = t
  · subst ht
    rw [Function.update_self] at hd
    rcases hnew with hnone | ⟨hsome, hl⟩
    · rw [hnone] at hd
      cases hd
    · rw [hsome] at hd
      cases hd
      exact Or.inl ⟨rfl, hl⟩
  · rw [Function.update_of_ne ht] at hd
    refine Or.inr ⟨?_, hd⟩
    rintro rfl
    exact hc t' ht (h.request t' d hd)

theorem Views.unheld (h : Views connections place ready loc) (hc : loc c = .scheduler ∨ loc c = .gone)
    (l : Loc threads) : Views connections place ready (Function.update loc c l) := by
  refine h.change (fun c' hne => Function.update_of_ne hne ..) (h.pool_other ?_) h.pooled
    (h.request_other fun t => ?_) (h.server_other ?_) h.ready <;>
  · rintro heq
    rw [heq] at hc
    simp at hc

end Others

theorem Armed.delivered (h : Armed memory waiting events delivery) {g : Nat}
    (hkeep : ∀ g' c con, g' ≠ g → g' ∈ events → waiting g' = some c → memory c = some con → con.handle = g' →
      waiting' g' = some c ∧ memory' c = some con) : Armed memory' waiting' (events.erase g) .idle where
  nodup := h.nodup.erase g
  event g' hg' := by
    obtain ⟨hne, hmem⟩ := h.nodup.mem_erase_iff.mp hg'
    obtain ⟨c, con, hc, hcon, hhandle⟩ := h.event g' hmem
    obtain ⟨hc', hcon'⟩ := hkeep g' c con hne hmem hc hcon hhandle
    exact ⟨c, con, hc', hcon', hhandle⟩
  newData := nofun
  removing := nofun

theorem Armed.write (h : Armed memory waiting events delivery) (hcon : memory c = some con) {con' : Connection}
    (hhandle : con'.handle = con.handle)
    (hflags : con.handle ∈ events → con.toRemove = false → con.schedulerHandler = true →
      con'.toRemove = false ∧ con'.schedulerHandler = true) :
    Armed (Function.update memory c (some con')) waiting events delivery where
  nodup := h.nodup
  event g hg := by
    obtain ⟨d, e, hd, he, hhandle'⟩ := h.event g hg
    by_cases hdc : d = c
    · subst hdc
      rw [hcon] at he
      cases he
      exact ⟨d, con', hd, Function.update_self .., hhandle.trans hhandle'⟩
    · exact ⟨d, e, hd, by rw [Function.update_of_ne hdc, he], hhandle'⟩
  newData := h.newData
  removing g d hd := by
    obtain ⟨hg, hw, hold⟩ := h.removing g d hd
    refine ⟨hg, hw, fun e he => ?_⟩
    by_cases hdc : d = c
    · subst hdc
      rw [Function.update_self] at he
      cases he
      obtain ⟨d', e', hw', he', hhandle'⟩ := h.event g hg
      rw [hw] at hw'
      cases hw'
      rw [hcon] at he'
      cases he'
      obtain ⟨hremove, hhandler⟩ := hold con hcon
      exact hflags (by rw [hhandle']; exact hg) hremove hhandler
    · rw [Function.update_of_ne hdc] at he
      exact hold e he

theorem Armed.create (h : Armed memory waiting events delivery) (hnone : memory c = none) :
    Armed (Function.update memory c (some con)) waiting events delivery where
  nodup := h.nodup
  event g hg := by
    obtain ⟨d, e, hd, he, hhandle⟩ := h.event g hg
    have hdc : d ≠ c := by
      rintro rfl
      rw [hnone] at he
      cases he
    exact ⟨d, e, hd, by rw [Function.update_of_ne hdc, he], hhandle⟩
  newData := h.newData
  removing g d hd := by
    obtain ⟨hg, hw, hold⟩ := h.removing g d hd
    obtain ⟨d', e, hw', he, -⟩ := h.event g hg
    rw [hw] at hw'
    cases hw'
    have hdc : d ≠ c := by
      rintro rfl
      rw [hnone] at he
      cases he
    exact ⟨hg, hw, by rwa [Function.update_of_ne hdc]⟩

theorem Armed.delete (h : Armed memory waiting events delivery) (hcon : memory c = some con)
    (hfree : con.handle ∉ events) :
    Armed (Function.update memory c none) (Function.update waiting con.handle none) events delivery := by
  have hwaiting : ∀ g ∈ events, Function.update waiting con.handle none g = waiting g := by
    intro g hg
    apply Function.update_of_ne
    rintro rfl
    exact hfree hg
  have hmemory : ∀ g ∈ events, ∀ d, waiting g = some d → Function.update memory c none d = memory d := by
    intro g hg d hd
    apply Function.update_of_ne
    rintro rfl
    obtain ⟨d', e, hd', he, hhandle⟩ := h.event g hg
    rw [hd] at hd'
    cases hd'
    rw [hcon] at he
    cases he
    exact hfree (by rwa [hhandle])
  refine ⟨h.nodup, fun g hg => ?_, fun g d n hd => ?_, fun g d hd => ?_⟩
  · obtain ⟨d, e, hw, he, hhandle⟩ := h.event g hg
    exact ⟨d, e, (hwaiting g hg).trans hw, (hmemory g hg d hw).trans he, hhandle⟩
  · obtain ⟨hg, hw⟩ := h.newData g d n hd
    exact ⟨hg, (hwaiting g hg).trans hw⟩
  · obtain ⟨hg, hw, hold⟩ := h.removing g d hd
    refine ⟨hg, (hwaiting g hg).trans hw, ?_⟩
    rwa [hmemory g hg d hw]

theorem Armed.arm (h : Armed memory waiting events delivery) (hcon : memory c = some con)
    (hfree : con.handle ∉ events) :
    Armed memory (Function.update waiting con.handle (some c)) (con.handle :: events) delivery :=
  have hother : ∀ g ∈ events, Function.update waiting con.handle (some c) g = waiting g := by
    intro g hg
    apply Function.update_of_ne
    rintro rfl
    exact hfree hg
  { nodup := List.nodup_cons.mpr ⟨hfree, h.nodup⟩
    event := by
      intro g hg
      rcases List.mem_cons.mp hg with rfl | hg
      · exact ⟨c, con, Function.update_self .., hcon, rfl⟩
      · rw [hother g hg]
        exact h.event g hg
    newData := by
      intro g d notice hd
      obtain ⟨hg, hw⟩ := h.newData g d notice hd
      exact ⟨List.mem_cons_of_mem _ hg, by rwa [hother g hg]⟩
    removing := by
      intro g d hd
      obtain ⟨hg, hw, hold⟩ := h.removing g d hd
      exact ⟨List.mem_cons_of_mem _ hg, by rwa [hother g hg], hold⟩ }

end Groups

theorem Inv.sound {s : Pool threads} {loc : Nat → Loc threads} (h : Inv s loc) : Sound s where
  defined := h.defined
  single t t' c ht ht' := by
    have heq := (h.views.request t c ht).symm.trans (h.views.request t' c ht')
    cases heq
    rfl
  apart cr hcr t ht := by
    have heq := (h.views.request t _ ht).symm.trans (h.views.pool cr hcr)
    cases heq
  pooled := h.views.pooled
  bounded := h.bounded
  poolAlive cr hcr := by
    obtain ⟨con, hcon⟩ := h.located.alive (by rw [h.views.pool cr hcr]; exact nofun)
    rw [hcon]
    exact nofun
  requestAlive t c ht := by
    obtain ⟨con, hcon⟩ := h.located.alive (by rw [h.views.request t c ht]; exact nofun)
    rw [hcon]
    exact nofun
  eventAlive handle hhandle := by
    obtain ⟨c, con, hc, hcon, -⟩ := h.armed.event handle hhandle
    exact ⟨c, hc, by rw [hcon]; exact nofun⟩

end MyServer.ProxyPool
