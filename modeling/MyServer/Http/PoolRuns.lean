import MyServer.Http.PoolInvariant

/-!
# Runs of the pool

Clean steps keep the invariant, and a step that is not clean can end badly.
-/

namespace MyServer.ProxyPool

variable {threads : Nat}

/-! ## The steps of a request -/

section

variable {s s' : Pool threads} {loc : Nat → Loc threads} {t : Fin threads}

theorem place_goes {place : Fin threads → Place} {p : Place} {c : Nat}
    (hold : ∀ c', (place t).connection = some c' → c' = c) (t' : Fin threads) :
    Function.update place t p t' = place t' ∨ ∀ c', (place t').connection = some c' → c' = c := by
  by_cases ht : t' = t
  · subst ht
    exact Or.inr hold
  · exact Or.inl (Function.update_of_ne ht ..)

theorem isOpen_iff (h : Inv s loc) {handle : Nat} :
    s.isOpen handle = true ↔ ∃ c con, s.memory c = some con ∧ con.handle = handle := by
  unfold Pool.isOpen
  rw [List.any_eq_true]
  constructor
  · rintro ⟨c, -, hc⟩
    cases hcon : s.memory c with
    | none =>
      rw [hcon] at hc
      cases hc
    | some con =>
      rw [hcon] at hc
      exact ⟨c, con, hcon, of_decide_eq_true hc⟩
  · rintro ⟨c, con, hcon, hhandle⟩
    refine ⟨c, List.mem_range.mpr ?_, by simp [hcon, hhandle]⟩
    by_contra hlt
    have hnone := h.located.fresh c (by omega)
    rw [hcon] at hnone
    cases hnone

theorem inv_getConnection (h : Inv s loc) (ht : s.place t = .idle) {host : Str} {port handle : Nat}
    {connects : Bool} (hstep : s.getConnection t host port handle connects = some s') : ∃ loc', Inv s' loc' := by
  unfold Pool.getConnection at hstep
  have hidle : (s.place t).connection = none := by rw [ht]; rfl
  cases hfind : s.connections.find? fun cr => cr.port = port ∧ cr.host = host with
  | some cr =>
    rw [hfind] at hstep
    cases hstep
    have hcr := List.mem_of_find?_eq_some hfind
    have hpool := h.views.pool cr hcr
    obtain ⟨con, hcon⟩ := h.located.alive (by rw [hpool]; exact nofun)
    have hfits := h.located.fits _ con hcon
    rw [hpool] at hfits
    have hlength := List.length_erase_of_mem hcr
    refine ⟨Function.update loc cr.connection (.request t), h.defined, ?_, ?_, ?_, h.armed⟩
    · change (s.connections.erase cr).length ≤ s.maxKeepAliveConnections
      have := h.bounded
      omega
    · refine h.located.move hcon (place_goes (by rw [hidle]; exact nofun)) (fun _ => Or.inl) ?_
      change (Function.update s.place t (.request cr.connection) t).Fits s.events cr.connection con
      rw [Function.update_self]
      exact ⟨rfl, hfits.1, fun hs => absurd (hs.symm.trans hfits.2) nofun⟩
    · exact h.views.change (fun c' hc => Function.update_of_ne hc ..) (h.views.pool_erase hcr)
        (h.views.pooled_erase cr)
        (h.views.request_goes (Or.inl hidle) (by rw [hpool]; exact fun _ _ => nofun)
          (Or.inr ⟨rfl, Function.update_self ..⟩))
        (h.views.server_other (by rw [hpool]; exact nofun)) h.views.ready
  | none =>
    rw [hfind] at hstep
    dsimp only at hstep
    split_ifs at hstep with hopen hconnects
    · cases hstep
      have hfresh := h.located.fresh s.next le_rfl
      have hloc := h.located.gone s.next hfresh
      have hclosed : ∀ c con, s.memory c = some con → con.handle ≠ handle :=
        fun c con hcon hsame => hopen ((isOpen_iff h).mpr ⟨c, con, hcon, hsame⟩)
      have hfree : handle ∉ s.events := by
        intro hmem
        obtain ⟨c, con, -, hcon, hsame⟩ := h.armed.event handle hmem
        exact hclosed c con hcon hsame
      refine ⟨Function.update loc s.next (.request t), h.defined, h.bounded,
        h.located.create ht hfree hclosed rfl, ?_, ?_⟩
      · exact h.views.change (fun c' hc => Function.update_of_ne hc ..)
          (h.views.pool_other (by rw [hloc]; exact nofun)) h.views.pooled
          (h.views.request_goes (Or.inl hidle) (by rw [hloc]; exact fun _ _ => nofun)
            (Or.inr ⟨rfl, Function.update_self ..⟩))
          (h.views.server_other (by rw [hloc]; exact nofun)) h.views.ready
      · exact h.armed.create hfresh
    · cases hstep
      exact ⟨loc, h⟩

theorem Inv.place (h : Inv s loc) {c : Nat} (hc : (s.place t).connection = some c) :
    ∃ con, s.memory c = some con ∧ loc c = .request t ∧ (s.place t).Fits s.events c con := by
  have hloc := h.views.request t c hc
  obtain ⟨con, hcon⟩ := h.located.alive (by rw [hloc]; exact nofun)
  have hfits := h.located.fits c con hcon
  rw [hloc] at hfits
  exact ⟨con, hcon, hloc, hfits⟩

/-- The request moves on with its connection, or leaves it. -/
theorem Inv.views_goes (h : Inv s loc) {c : Nat} (hc : (s.place t).connection = some c) {p : Place}
    {l : Loc threads} (hp : p.connection = none ∨ p.connection = some c ∧ l = .request t) :
    Views s.connections (Function.update s.place t p) s.ready (Function.update loc c l) := by
  have hloc := h.views.request t c hc
  refine h.views.change (fun c' hc => Function.update_of_ne hc ..) (h.views.pool_other (by rw [hloc]; exact nofun))
    h.views.pooled (h.views.request_goes (Or.inr hc) ?_ ?_) (h.views.server_other (by rw [hloc]; exact nofun))
    h.views.ready
  · intro t' ht heq
    rw [hloc] at heq
    cases heq
    exact ht rfl
  · rwa [Function.update_self]

theorem place_goes_of (hc : (s.place t).connection = some c) (p : Place) (t' : Fin threads) :
    Function.update s.place t p t' = s.place t' ∨ ∀ c', (s.place t').connection = some c' → c' = c :=
  place_goes (fun _ hother => Option.some.inj (hother.symm.trans hc)) t'

theorem inv_addConnection (h : Inv s loc) {c : Nat} (ht : s.place t = .request c) {host : Str} {port : Nat}
    {keepalive : Bool} (hclean : Clean s (.addConnection t host port keepalive)) :
    ∃ loc', Inv (s.addConnection t c host port keepalive) loc' := by
  have hc : (s.place t).connection = some c := by rw [ht]; rfl
  obtain ⟨con, hcon, -, hfits⟩ := h.place hc
  rw [ht] at hfits
  refine ⟨Function.update loc c (.request t), ?_⟩
  unfold Pool.addConnection
  rw [hcon]
  dsimp only
  split_ifs with hrefused
  · have hfree := hclean c ht hrefused con hcon
    refine ⟨h.defined, h.bounded, h.located.write hcon rfl (place_goes_of hc _) (fun _ => Or.inl) ?_,
      h.views_goes hc (Or.inr ⟨rfl, rfl⟩), h.armed.write hcon rfl fun hmem => absurd hmem hfree⟩
    change (Function.update s.place t (.refused c) t).Fits s.events c _
    rw [Function.update_self]
    exact ⟨rfl, rfl, hfree⟩
  · refine ⟨h.defined, h.bounded, h.located.write hcon rfl (place_goes_of hc _) (fun _ => Or.inl) ?_,
      h.views_goes hc (Or.inr ⟨rfl, rfl⟩), h.armed.write hcon rfl fun _ hremove _ => ⟨hremove, rfl⟩⟩
    change (Function.update s.place t (.admitted ⟨host, port, c⟩) t).Fits s.events c _
    rw [Function.update_self]
    exact ⟨rfl, hfits.2.1, rfl⟩

theorem inv_arm (h : Inv s loc) {c : Nat} (hc : (s.place t).connection = some c) {con : Connection}
    (hcon : s.memory c = some con) (hfree : con.handle ∉ s.events) {p : Place} {l : Loc threads}
    (hp : p.connection = none ∨ p.connection = some c ∧ l = .request t)
    (hfits : Fits (Function.update s.place t p) (con.handle :: s.events) c { con with scheduled := false } l) :
    Inv (s.addNewWaitingConnection t c p) (Function.update loc c l) := by
  unfold Pool.addNewWaitingConnection
  rw [hcon]
  refine ⟨h.defined, h.bounded, h.located.write hcon rfl (place_goes_of hc _) (fun g hg => ?_) hfits,
    h.views_goes hc hp, ?_⟩
  · rcases List.mem_cons.mp hg with rfl | hg
    · exact Or.inr rfl
    · exact Or.inl hg
  · have hwrite := @Armed.write _ _ _ _ _ _ h.armed hcon { con with scheduled := false } rfl fun _ hr hs => ⟨hr, hs⟩
    have hself := Function.update_self c (some { con with scheduled := false }) s.memory
    have harm := hwrite.arm hself hfree
    exact harm

theorem inv_admitted (h : Inv s loc) {cr : ConnectionRecord} (ht : s.place t = .admitted cr)
    (hclean : Clean s (.proceed t)) :
    ∃ loc', Inv (s.addNewWaitingConnection t cr.connection (.waiting cr)) loc' := by
  have hc : (s.place t).connection = some cr.connection := by rw [ht]; rfl
  obtain ⟨con, hcon, -, hfits⟩ := h.place hc
  rw [ht] at hfits
  refine ⟨_, inv_arm h hc hcon (hclean.1 cr ht con hcon) (Or.inr ⟨rfl, rfl⟩) ?_⟩
  change (Function.update s.place t (.waiting cr) t).Fits _ _ _
  rw [Function.update_self]
  exact hfits

theorem inv_refused (h : Inv s loc) {c : Nat} (ht : s.place t = .refused c) :
    ∃ loc', Inv (s.addNewWaitingConnection t c .idle) loc' := by
  have hc : (s.place t).connection = some c := by rw [ht]; rfl
  obtain ⟨con, hcon, -, hfits⟩ := h.place hc
  rw [ht] at hfits
  have harm := @inv_arm _ s loc t h c hc con hcon hfits.2.2 .idle .scheduler (Or.inl rfl) hfits.2.1
  exact ⟨_, harm⟩

theorem inv_pushed (h : Inv s loc) {cr : ConnectionRecord} (ht : s.place t = .waiting cr)
    (hclean : Clean s (.proceed t)) :
    ∃ loc', Inv { s.goes t .idle with connections := s.connections ++ [cr] } loc' := by
  have hc : (s.place t).connection = some cr.connection := by rw [ht]; rfl
  obtain ⟨con, hcon, hloc, hfits⟩ := h.place hc
  rw [ht] at hfits
  have hidle := @Inv.views_goes _ s loc t h _ hc .idle .pool (Or.inl rfl)
  refine ⟨Function.update loc cr.connection .pool, h.defined, ?_,
    h.located.move hcon (place_goes_of hc _) (fun _ => Or.inl) hfits.2, ?_, h.armed⟩
  · change (s.connections ++ [cr]).length ≤ s.maxKeepAliveConnections
    have hroom := hclean.2 cr ht
    rw [List.length_append, List.length_singleton]
    omega
  · refine ⟨fun r hr => ?_, ?_, hidle.request, hidle.server, hidle.ready⟩
    · rcases List.mem_append.mp hr with hr | hr
      · exact hidle.pool r hr
      · rw [List.mem_singleton.mp hr]
        exact Function.update_self ..
    · change ((s.connections ++ [cr]).map ConnectionRecord.connection).Nodup
      rw [List.map_append]
      refine h.views.pooled.append (List.nodup_singleton _) ?_
      intro x hx hsame
      obtain ⟨r, hr, rfl⟩ := List.mem_map.mp hx
      have hpool := h.views.pool r hr
      rw [List.mem_singleton.mp hsame, hloc] at hpool
      cases hpool

end

/-! ## The steps of the dispatcher -/

section

variable {s s' : Pool threads} {loc : Nat → Loc threads}

theorem inv_delivered (h : Inv s loc) (handle : Nat) : Inv (s.delivered handle) loc where
  defined := h.defined
  bounded := h.bounded
  located := h.located.fewer (fun _ => List.mem_of_mem_erase)
  views := h.views
  armed := h.armed.delivered fun _ _ _ _ _ hw hcon _ => ⟨hw, hcon⟩

theorem inv_fire (h : Inv s loc) {handle c : Nat} (hevent : handle ∈ s.events) (hwaiting : s.waiting handle = some c)
    (notice : Notice) : Inv { s with delivery := .newData handle c notice } loc where
  defined := h.defined
  bounded := h.bounded
  located := h.located
  views := h.views
  armed := by
    refine ⟨h.armed.nodup, h.armed.event, fun g d n hd => ?_, nofun⟩
    cases hd
    exact ⟨hevent, hwaiting⟩

/-- The event of a connection is delivered, and the others are not touched. -/
theorem Inv.armed_delivered (h : Inv s loc) {handle c : Nat} {con : Connection} (hcon : s.memory c = some con)
    (hhandle : con.handle = handle) {memory' : Nat → Option Connection} {waiting' : Nat → Option Nat}
    (hmemory : ∀ d ≠ c, memory' d = s.memory d) (hwaiting : ∀ g ≠ handle, waiting' g = s.waiting g) :
    Armed memory' waiting' (s.events.erase handle) .idle := by
  refine h.armed.delivered fun g d e hg _ hw he hsame => ?_
  have hdc : d ≠ c := by
    rintro rfl
    rw [hcon] at he
    cases he
    exact hg (hsame.symm.trans hhandle)
  exact ⟨(hwaiting g hg).trans hw, (hmemory d hdc).trans he⟩

theorem inv_newData (h : Inv s loc) {handle c : Nat} {notice : Notice}
    (hdelivery : s.delivery = .newData handle c notice) : ∃ loc', Inv (s.newData handle c notice) loc' := by
  obtain ⟨hevent, hwaiting⟩ := h.armed.newData _ _ _ hdelivery
  obtain ⟨c', con, hw, hcon, hhandle⟩ := h.armed.event handle hevent
  obtain rfl : c = c' := Option.some.inj (hwaiting.symm.trans hw)
  have hfits := h.located.fits c con hcon
  have hfewer : ∀ g ∈ s.events.erase handle, g ∈ s.events ∨ g = con.handle :=
    fun g hg => Or.inl (List.mem_of_mem_erase hg)
  have hwith := hfits.scheduler (by rwa [hhandle])
  have hfree : con.handle ∉ s.events.erase handle := by
    rw [hhandle]
    exact h.armed.nodup.not_mem_erase
  unfold Pool.newData
  rw [hcon]
  dsimp only
  by_cases hhandler : con.schedulerHandler = true
  · rw [if_pos hhandler]
    by_cases hremove : con.toRemove = true
    · rw [if_pos hremove]
      have hloc := hwith (Or.inl hremove)
      exact ⟨_, h.defined, h.bounded, h.located.delete hcon hfewer, h.views.unheld (Or.inl hloc) .gone,
        h.armed_delivered hcon hhandle (fun d hd => Function.update_of_ne hd ..) fun _ _ => rfl⟩
    · rw [if_neg hremove]
      refine ⟨loc, h.defined, h.bounded, h.located, h.views, h.armed.nodup, h.armed.event, nofun, fun g d hd => ?_⟩
      cases hd
      refine ⟨hevent, hwaiting, fun con' hcon' => ?_⟩
      rw [hcon] at hcon'
      cases hcon'
      exact ⟨by simpa using hremove, hhandler⟩
  · rw [if_neg hhandler]
    have hloc := hwith (Or.inr (by simpa using hhandler))
    cases notice with
    | read =>
      have hviews := h.views.unheld (Or.inl hloc) .server
      refine ⟨Function.update loc c .server, h.defined, h.bounded,
        h.located.write hcon rfl (fun _ => Or.inl rfl) hfewer hfree, ?_,
        h.armed_delivered hcon hhandle (fun d hd => Function.update_of_ne hd ..) fun _ _ => rfl⟩
      refine ⟨hviews.pool, hviews.pooled, hviews.request, fun d hd => ?_,
        List.nodup_cons.mpr ⟨fun hmem => ?_, hviews.ready⟩⟩
      · rcases List.mem_cons.mp hd with rfl | hd
        · exact Function.update_self ..
        · exact hviews.server d hd
      · have hserver := h.views.server c hmem
        rw [hloc] at hserver
        cases hserver
    | timeout =>
      dsimp only
      split_ifs with hscheduled
      · exact ⟨loc, inv_delivered h handle⟩
      · exact ⟨_, h.defined, h.bounded, h.located.delete hcon hfewer, h.views.unheld (Or.inl hloc) .gone,
          h.armed_delivered hcon hhandle (fun d hd => Function.update_of_ne hd ..)
            fun g hg => Function.update_of_ne (by rwa [hhandle]) ..⟩

theorem inv_removeConnection (h : Inv s loc) {handle c : Nat}
    (hdelivery : s.delivery = .removeConnection handle c) : ∃ loc', Inv (s.removeConnection handle c) loc' := by
  obtain ⟨hevent, hwaiting, -⟩ := h.armed.removing _ _ hdelivery
  obtain ⟨c', con, hw, hcon, hhandle⟩ := h.armed.event handle hevent
  obtain rfl : c = c' := Option.some.inj (hwaiting.symm.trans hw)
  unfold Pool.removeConnection
  cases hfind : s.connections.find? fun cr => cr.connection = c with
  | none => exact ⟨loc, inv_delivered h handle⟩
  | some cr =>
    have hcr := List.mem_of_find?_eq_some hfind
    obtain rfl : cr.connection = c := by simpa using List.find?_some hfind
    have hpool := h.views.pool cr hcr
    have hlength := List.length_erase_of_mem hcr
    rw [hcon]
    refine ⟨_, h.defined, ?_, h.located.delete hcon fun g hg => Or.inl (List.mem_of_mem_erase hg), ?_,
      h.armed_delivered hcon hhandle (fun d hd => Function.update_of_ne hd ..) fun _ _ => rfl⟩
    · change (s.connections.erase cr).length ≤ s.maxKeepAliveConnections
      have := h.bounded
      omega
    · exact h.views.change (fun c' hc => Function.update_of_ne hc ..) (h.views.pool_erase hcr)
        (h.views.pooled_erase cr) (h.views.request_other (by rw [hpool]; exact fun _ => nofun))
        (h.views.server_other (by rw [hpool]; exact nofun)) h.views.ready

theorem inv_deleteConnection (h : Inv s loc) {c : Nat} (hready : c ∈ s.ready) :
    ∃ con, s.memory c = some con ∧ ∃ loc', Inv { s.deleteConnection c con with ready := s.ready.erase c } loc' := by
  have hloc := h.views.server c hready
  obtain ⟨con, hcon⟩ := h.located.alive (by rw [hloc]; exact nofun)
  have hfree := h.located.fits c con hcon
  rw [hloc] at hfree
  refine ⟨con, hcon, _, h.defined, h.bounded, h.located.delete hcon fun _ => Or.inl, ?_, h.armed.delete hcon hfree⟩
  refine h.views.change (fun c' hc => Function.update_of_ne hc ..) (h.views.pool_other (by rw [hloc]; exact nofun))
    h.views.pooled (h.views.request_other (by rw [hloc]; exact fun _ => nofun)) (fun d hd => Or.inr ?_)
    (h.views.ready.erase c)
  exact h.views.ready.mem_erase_iff.mp hd

/-! ## Every run -/

theorem inv_step (h : Inv s loc) {e : Event threads} (hclean : Clean s e) (hstep : step s e = some s') :
    ∃ loc', Inv s' loc' := by
  cases e with
  | getConnection t host port handle connects =>
    simp only [step, h.defined] at hstep
    split at hstep
    · exact inv_getConnection h ‹_› hstep
    · cases hstep
  | addConnection t host port keepalive =>
    simp only [step, h.defined] at hstep
    split at hstep
    · cases hstep
      exact inv_addConnection h ‹_› hclean
    · cases hstep
  | proceed t =>
    simp only [step, h.defined] at hstep
    split at hstep
    · cases hstep
      exact inv_admitted h ‹_› hclean
    · cases hstep
      exact inv_pushed h ‹_› hclean
    · cases hstep
      exact inv_refused h ‹_›
    · cases hstep
  | fire handle notice =>
    simp only [step, h.defined] at hstep
    split at hstep
    · split_ifs at hstep with hevent
      split at hstep
      · cases hstep
        exact ⟨loc, inv_delivered h handle⟩
      · cases hstep
        have hfire := inv_fire h hevent ‹_› notice
        rw [h.defined] at hfire
        exact ⟨loc, hfire⟩
    · cases hstep
  | deliver =>
    simp only [step, h.defined] at hstep
    split at hstep
    · cases hstep
      exact inv_newData h ‹_›
    · cases hstep
      exact inv_removeConnection h ‹_›
    · cases hstep
  | deleteConnection c =>
    simp only [step, h.defined] at hstep
    split_ifs at hstep with hready
    obtain ⟨con, hcon, hinv⟩ := inv_deleteConnection h hready
    rw [hcon] at hstep
    cases hstep
    exact hinv

theorem soundRun_of_inv (h : Inv s loc) {events : List (Event threads)} (hclean : CleanRun events s) :
    SoundRun events s := by
  refine @Safety.throughout_of_invariant _ _ _ _ (fun s => ∃ loc, Inv s loc) _ s events ?_ ?_ ⟨loc, h⟩ hclean
  · rintro s e s' ⟨loc, h⟩ he hstep
    exact inv_step h he hstep
  · rintro s ⟨loc, h⟩
    exact h.sound

/-! ## What a step that is not clean leads to -/

theorem not_sound_of_deleted {handle c : Nat} (hevent : handle ∈ s.events) (hwaiting : s.waiting handle = some c)
    (hdeleted : s.memory c = none) : ¬ Sound s := by
  intro hsound
  obtain ⟨d, hd, halive⟩ := hsound.eventAlive handle hevent
  rw [hwaiting] at hd
  cases hd
  exact halive hdeleted

/-- A connection with an event is to be removed: the event deletes it, and the one that is armed next is left. -/
theorem refused_deleted (h : Inv s loc) (hidle : s.delivery = .idle) {t : Fin threads} {c : Nat} {con : Connection}
    (ht : s.place t = .request c) (hcon : s.memory c = some con) (hevent : con.handle ∈ s.events) {host : Str}
    {port : Nat} {keepalive : Bool}
    (hrefused : keepalive = false ∨ s.maxKeepAliveConnections ≤ s.connections.length) :
    ∃ s', Safety.run step [.proceed t, .fire con.handle .read, .deliver]
      (s.addConnection t c host port keepalive) = some s' ∧ ¬ Sound s' := by
  have hfits := h.located.fits c con hcon
  rw [h.views.request t c (by rw [ht]; rfl)] at hfits
  change (s.place t).Fits s.events c con at hfits
  rw [ht] at hfits
  have hhandler : con.schedulerHandler = true := by
    by_contra hnone
    exact hfits.2.2 (by simpa using hnone) hevent
  obtain ⟨s', hrun, hleft, hwaiting, hdeleted⟩ : ∃ s', Safety.run step [.proceed t, .fire con.handle .read, .deliver]
      (s.addConnection t c host port keepalive) = some s' ∧ con.handle ∈ s'.events ∧
        s'.waiting con.handle = some c ∧ s'.memory c = none := by
    simp [Safety.run, step, Pool.addConnection, Pool.addNewWaitingConnection, Pool.newData, Pool.goes, Pool.write,
      Pool.delivered, hcon, hrefused, h.defined, hidle, hhandler, hevent]
  exact ⟨s', hrun, not_sound_of_deleted hleft hwaiting hdeleted⟩

/-- A connection with an event goes back to the pool: one event takes it out and deletes it. -/
theorem admitted_deleted (h : Inv s loc) (hidle : s.delivery = .idle) {t : Fin threads} {cr : ConnectionRecord}
    {con : Connection} (ht : s.place t = .admitted cr) (hcon : s.memory cr.connection = some con)
    (hevent : con.handle ∈ s.events) :
    ∃ s', Safety.run step [.proceed t, .fire con.handle .read, .deliver, .deliver]
      (s.addNewWaitingConnection t cr.connection (.waiting cr)) = some s' ∧ ¬ Sound s' := by
  have hfits := h.located.fits _ con hcon
  rw [h.views.request t cr.connection (by rw [ht]; rfl)] at hfits
  change (s.place t).Fits s.events cr.connection con at hfits
  rw [ht] at hfits
  obtain ⟨-, hremove, hhandler⟩ := hfits
  have hnone : s.connections.find? (fun r => r.connection = cr.connection) = none := by
    rw [List.find?_eq_none]
    intro r hr hsame
    have hpool := h.views.pool r hr
    rw [of_decide_eq_true hsame, h.views.request t cr.connection (by rw [ht]; rfl)] at hpool
    cases hpool
  obtain ⟨s', hrun, hleft, hwaiting, hdeleted⟩ : ∃ s',
      Safety.run step [.proceed t, .fire con.handle .read, .deliver, .deliver]
      (s.addNewWaitingConnection t cr.connection (.waiting cr)) = some s' ∧ con.handle ∈ s'.events ∧
        s'.waiting con.handle = some cr.connection ∧ s'.memory cr.connection = none := by
    simp [Safety.run, step, Pool.addNewWaitingConnection, Pool.newData, Pool.removeConnection, Pool.goes, Pool.write,
      Pool.delivered, hcon, h.defined, hidle, hhandler, hremove, hevent, List.find?_append, hnone]
  exact ⟨s', hrun, not_sound_of_deleted hleft hwaiting hdeleted⟩

/-- **Each step that is not clean can end badly,** at the latest with the next event. -/
theorem unsound_of_unclean (h : Inv s loc) (hidle : s.delivery = .idle) {e : Event threads} (hclean : ¬ Clean s e)
    (hstep : step s e = some s') : ∃ events s'', Safety.run step events s' = some s'' ∧ ¬ Sound s'' := by
  cases e with
  | getConnection | fire | deliver | deleteConnection => exact absurd trivial hclean
  | addConnection t host port keepalive =>
    simp only [Clean, Unarmed, not_forall, not_not] at hclean
    obtain ⟨c, ht, hrefused, con, hcon, hevent⟩ := hclean
    simp only [step, h.defined, ht] at hstep
    cases hstep
    exact ⟨_, refused_deleted h hidle ht hcon hevent hrefused⟩
  | proceed t =>
    simp only [Clean, Unarmed, not_and_or, not_forall, not_not, not_lt] at hclean
    rcases hclean with ⟨cr, ht, con, hcon, hevent⟩ | ⟨cr, ht, hfull⟩
    · simp only [step, h.defined, ht] at hstep
      cases hstep
      exact ⟨_, admitted_deleted h hidle ht hcon hevent⟩
    · simp only [step, h.defined, ht] at hstep
      cases hstep
      refine ⟨[], _, rfl, fun hsound => ?_⟩
      have hbounded := hsound.bounded
      change (s.connections ++ [cr]).length ≤ s.maxKeepAliveConnections at hbounded
      rw [List.length_append, List.length_singleton] at hbounded
      omega

end

/-- **On clean steps the three views stay apart.** -/
theorem soundRun_of_clean {maxKeepAliveConnections : Nat} {events : List (Event threads)}
    (hclean : CleanRun events (Pool.new threads maxKeepAliveConnections)) :
    SoundRun events (Pool.new threads maxKeepAliveConnections) :=
  soundRun_of_inv (inv_new threads maxKeepAliveConnections) hclean

/-! ## One connection, used twice -/

def upstream : Str := ascii "upstream"

def serve : List (Event 1) :=
  [.getConnection 0 upstream 80 5 true, .addConnection 0 upstream 80 true, .proceed 0, .proceed 0]

def expire : List (Event 1) := [.fire 5 .read, .deliver, .deliver]

/-- Its event comes while the pool has it. -/
theorem serve_soundRun : SoundRun (serve ++ expire) (Pool.new 1 64) := by
  apply soundRun_of_clean
  refine ⟨trivial, fun s hs => ?_⟩
  cases hs
  refine ⟨fun _ _ _ _ _ => List.not_mem_nil, fun s hs => ?_⟩
  cases hs
  refine ⟨⟨fun _ _ _ _ => List.not_mem_nil, fun _ _ => by decide⟩, fun s hs => ?_⟩
  cases hs
  refine ⟨⟨fun cr hcr => ?_, fun _ _ => by decide⟩, fun s hs => ?_⟩
  · exact Place.noConfusion (show Place.waiting ⟨upstream, 80, 0⟩ = Place.admitted cr from hcr)
  cases hs
  refine ⟨trivial, fun s hs => ?_⟩
  cases hs
  refine ⟨trivial, fun s hs => ?_⟩
  cases hs
  exact ⟨trivial, fun _ _ => trivial⟩

/-- It comes when a second one is armed. -/
theorem not_kept_apart : ¬ ∀ (threads maxKeepAliveConnections : Nat) (events : List (Event threads)),
    SoundRun events (Pool.new threads maxKeepAliveConnections) := by
  intro hall
  obtain ⟨s, hrun, hevent, hwaiting, hdeleted⟩ : ∃ s,
      Safety.run step (serve ++ serve ++ expire) (Pool.new 1 64) = some s ∧
      5 ∈ s.events ∧ s.waiting 5 = some 0 ∧ s.memory 0 = none := ⟨_, rfl, by decide, rfl, rfl⟩
  exact not_sound_of_deleted hevent hwaiting hdeleted (Safety.Throughout.last (hall 1 64 _) hrun)

end MyServer.ProxyPool
