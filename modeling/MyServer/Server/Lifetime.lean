import MyServer.Server.Ownership

/-!
# What every step and every run does with the connections

A step keeps every connection exactly if nothing throws while one is on its way
and the protocol answers with a value that `ClientsThread` knows.
-/

namespace MyServer.Lifecycle

open Server Server.ClientsThread
open Scheduler (ReadyQueues)

/-! ## One step -/

section Step

variable {s : State} {c : ConnectionPtr} {handover : Handover}

/-- Where a connection is, after it was given to its next place or was not. -/
def Handover.away (handover : Handover) (c : ConnectionPtr) : Option ConnectionPtr :=
  if handover = .done then none else some c

theorem Sound.addReadyConnection (h : Sound (some c) s) (hc : c ∈ s.live) (p : Priorities) :
    Sound (handover.away c) (s.addReadyConnection c p handover) := by
  have hmodify := h.modify hc (f := fun k => { k with scheduled := true }) (fun _ => rfl)
    (fun _ => rfl)
  unfold State.addReadyConnection Handover.away
  dsimp only
  split
  · exact hmodify.push hc p
  · exact hmodify

theorem Sound.addWaitingConnection (h : Sound (some c) s) (hc : c ∈ s.live) (lock : Bool) :
    Sound (handover.away c) (s.addWaitingConnection c lock handover) := by
  have hmodify := h.modify hc (f := fun k => { k with scheduled := false }) (fun _ => rfl)
    (fun _ => rfl)
  have hlist := hmodify.remap hc (some c)
  unfold State.addWaitingConnection Handover.away
  dsimp only
  rcases handover with _ | listed
  · rw [if_pos rfl]
    dsimp only
    split
    · exact hlist.message hc (Function.update_self _ _ _) (by simp [State.modify])
    · exact hlist.watch hc (Function.update_self _ _ _) (by simp [State.modify])
  · rw [if_neg (by simp)]
    cases listed
    · exact hmodify
    · exact hlist

theorem Sound.deleteConnection (h : Sound (some c) s) (hc : c ∈ s.live) :
    Sound (handover.away c) (s.deleteConnection c handover) := by
  unfold State.deleteConnection Handover.away
  split
  · exact (h.remap hc none).forget hc
  · exact h

theorem live_addReadyConnection (p : Priorities) :
    (s.addReadyConnection c p handover).live = s.live := by
  unfold State.addReadyConnection
  dsimp only
  split <;> rfl

theorem live_addWaitingConnection (lock : Bool) :
    (s.addWaitingConnection c lock handover).live = s.live := by
  unfold State.addWaitingConnection
  dsimp only
  split
  · rfl
  · rfl
  · split <;> rfl

theorem live_deleteConnection (hnot : handover ≠ .done) :
    (s.deleteConnection c handover).live = s.live := by
  unfold State.deleteConnection
  rw [if_neg hnot]

/-- The control step gets as far as the protocol. -/
def Visit.Reached (v : Visit) (forceControl : Bool) : Prop :=
  ∃ err, v.received forceControl = .bytes err ∧ (forceControl ∨ 0 < err) ∧ v.dataRead + err < 8192

/-- What the continuation or the protocol returns is understood. -/
def Visit.Clear (v : Visit) : Prop :=
  (∀ r, v.continuation = some r → Understood r.retcode) ∧
    (v.continuation = none → ∀ r, v.protocol = some r → r.Clear)

/-- The socket does not throw, and what the protocol returns, if it is asked, is understood. -/
def Visit.Kept (v : Visit) (forceControl : Bool) : Prop :=
  v.received forceControl ≠ .threw ∧ (v.Reached forceControl → v.Clear)

theorem Visit.understood_retcode_iff (v : Visit) : Understood v.retcode ↔ v.Clear := by
  unfold retcode Clear
  cases v.continuation with
  | some r => simp
  | none =>
    cases v.protocol with
    | none => simp
    | some r => simp [r.understood_iff]

theorem Ending.ofRetcode_ne_threw (retcode : Int) : Ending.ofRetcode retcode ≠ .threw := by
  unfold Ending.ofRetcode
  split_ifs <;> simp

theorem Ending.ofRetcode_ne_nothing_iff (retcode : Int) :
    Ending.ofRetcode retcode ≠ .nothing ↔ Understood retcode := by
  unfold Ending.ofRetcode Understood
  split_ifs <;> simp_all

theorem Visit.kept_iff (v : Visit) (forceControl : Bool) :
    v.Kept forceControl ↔ v.ending forceControl ≠ .threw ∧ v.ending forceControl ≠ .nothing := by
  unfold Kept Reached ending
  cases h : v.received forceControl with
  | threw => simp
  | bytes err =>
    by_cases hread : forceControl ∨ 0 < err
    · have hnot : ¬ (¬ forceControl ∧ err ≤ 0) := by
        rintro ⟨hforce, herr⟩
        rcases hread with hread | hread
        · exact hforce hread
        · omega
      by_cases hfits : v.dataRead + err < 8192
      · simp only [if_neg hnot, if_pos hfits]
        rw [Ending.ofRetcode_ne_nothing_iff, v.understood_retcode_iff]
        simp [hread, hfits, Ending.ofRetcode_ne_threw]
      · simp only [if_neg hnot, if_neg hfits]
        simp [hfits]
    · have hpos : ¬ forceControl ∧ err ≤ 0 := by
        push Not at hread
        exact hread
      simp only [if_pos hpos]
      simp [hread]

def Outcome.Settled : Outcome → Prop
  | .silent => True
  | .controlled moves => moves.length = 1

/-- When a step leaves every connection with someone. -/
def State.Keeps (s : State) : Step → Prop
  | .accept _ a => a.refused ∨ a.handover = .done
  | .register registered => registered
  | .fire _ _ _ handover => handover = .done
  | .getConnection _ => True
  | .control w v _ handover =>
    handover = .done ∧ ∀ c, (w, c) ∈ s.owned → v.Kept (s.info c).forceControl

theorem away_eq_none_iff : handover.away c = none ↔ handover = .done := by
  unfold Handover.away
  split <;> simp_all

theorem away_eq_some {x : ConnectionPtr} (h : handover.away c = some x) : c = x := by
  unfold Handover.away at h
  split at h
  · cases h
  · exact Option.some.inj h

/-- The state after a step is in order, but for one connection if the step did not keep it. -/
structure Leaves (keeps : Prop) (o : Outcome) (s' : State) (away : Option ConnectionPtr) : Prop where
  sound : Sound away s'
  live : ∀ c, away = some c → c ∈ s'.live
  settled : keeps ↔ away = none ∧ o.Settled

section Leaves

variable {keeps : Prop} {o : Outcome}

theorem leaves_addReadyConnection (h : Sound (some c) s) (hc : c ∈ s.live) (p : Priorities)
    (hkeeps : keeps ↔ handover = .done ∧ o.Settled) :
    Leaves keeps o (s.addReadyConnection c p handover) (handover.away c) where
  sound := h.addReadyConnection hc p
  live x hx := by
    rw [live_addReadyConnection, ← away_eq_some hx]
    exact hc
  settled := by rw [away_eq_none_iff, hkeeps]

theorem leaves_addWaitingConnection (h : Sound (some c) s) (hc : c ∈ s.live) (lock : Bool)
    (hkeeps : keeps ↔ handover = .done ∧ o.Settled) :
    Leaves keeps o (s.addWaitingConnection c lock handover) (handover.away c) where
  sound := h.addWaitingConnection hc lock
  live x hx := by
    rw [live_addWaitingConnection, ← away_eq_some hx]
    exact hc
  settled := by rw [away_eq_none_iff, hkeeps]

theorem leaves_deleteConnection (h : Sound (some c) s) (hc : c ∈ s.live)
    (hkeeps : keeps ↔ handover = .done ∧ o.Settled) :
    Leaves keeps o (s.deleteConnection c handover) (handover.away c) where
  sound := h.deleteConnection hc
  live x hx := by
    have hnot : handover ≠ .done := by
      intro hdone
      rw [away_eq_none_iff.mpr hdone] at hx
      cases hx
    rw [live_deleteConnection hnot, ← away_eq_some hx]
    exact hc
  settled := by rw [away_eq_none_iff, hkeeps]

/-- The connection is where it was before the step: nowhere. -/
theorem leaves_away (h : Sound (some c) s) (hc : c ∈ s.live) (hkeeps : ¬ keeps) :
    Leaves keeps o s (some c) where
  sound := h
  live _ hx := Option.some.inj hx ▸ hc
  settled := iff_of_false hkeeps (by simp)

theorem leaves_none (h : Sound none s) (hkeeps : keeps) (ho : o.Settled) :
    Leaves keeps o s none where
  sound := h
  live _ hx := absurd hx (by simp)
  settled := iff_of_true hkeeps ⟨rfl, ho⟩

end Leaves

theorem settled_controlled (move : Move) (e : Ending) (h : e ≠ .threw ∧ e ≠ .nothing) :
    (handover = .done ∧ e ≠ .threw ∧ e ≠ .nothing) ↔
      handover = .done ∧ (Outcome.controlled (if handover = .done then [move] else [])).Settled := by
  refine and_congr_right fun hdone => iff_of_true h ?_
  rw [if_pos hdone]
  rfl

variable (handover) in
theorem step_control (h : Sound (some c) s) (hc : c ∈ s.live) (p : Priorities) (e : Ending) :
    ∃ away, Leaves (handover = .done ∧ e ≠ .threw ∧ e ≠ .nothing)
      (.controlled (s.control c p handover e).1) (s.control c p handover e).2 away := by
  cases e with
  | threw | nothing => exact ⟨some c, leaves_away h hc (by simp)⟩
  | delete => exact ⟨_, leaves_deleteConnection h hc (settled_controlled _ .delete (by simp))⟩
  | wait => exact ⟨_, leaves_addWaitingConnection h hc true (settled_controlled _ .wait (by simp))⟩
  | ready => exact ⟨_, leaves_addReadyConnection h hc p (settled_controlled _ .ready (by simp))⟩

theorem accept_leaves {a : Arrival} (h : Sound none s) (hnew : c ∉ s.live)
    (hfresh : ∀ x ∈ s.live, (s.info x).handle ≠ a.handle) :
    ∃ away, Leaves (s.Keeps (.accept c a)) .silent (s.addConnectionToList c a) away := by
  unfold State.addConnectionToList State.Keeps
  by_cases hrefused : a.refused
  · rw [if_pos hrefused]
    exact ⟨none, leaves_none h (Or.inl hrefused) trivial⟩
  · rw [if_neg hrefused]
    have henter := h.enter (k := ⟨a.handle, false, a.fastCheck, false⟩) hnew rfl hfresh
    have hkeeps : a.refused = true ∨ a.handover = .done ↔
        a.handover = .done ∧ Outcome.Settled .silent := by
      simp [hrefused, Outcome.Settled]
    refine ⟨a.handover.away c, ?_⟩
    dsimp only
    split
    · exact leaves_addReadyConnection henter List.mem_cons_self a.priorities hkeeps
    · exact leaves_addWaitingConnection henter List.mem_cons_self false hkeeps

/-- The event loop finds the connection of every handle that it watches, and it is not scheduled. -/
theorem newData_leaves {h₀ : Handle} (h : Sound (some c) s) (hc : c ∈ s.live)
    (hlisted : s.connections h₀ = some c) (hscheduled : (s.info c).scheduled = false)
    (event : Event) (p : Priorities) :
    ∃ away, Leaves (handover = .done) .silent (s.newData h₀ event p handover) away := by
  have hkeeps : handover = .done ↔ handover = .done ∧ Outcome.Settled .silent :=
    (and_iff_left trivial).symm
  refine ⟨handover.away c, ?_⟩
  unfold State.newData State.allowDelete
  simp only [hlisted, h.noHandler c hc, hscheduled, Bool.not_false, not_true_eq_false, if_false,
    Bool.false_eq_true]
  split
  · exact leaves_addReadyConnection h hc p hkeeps
  · exact leaves_deleteConnection h hc hkeeps

theorem control_keeps_iff {w : Nat} {v : Visit} {p : Priorities} (h : Sound none s)
    (hw : (w, c) ∈ s.owned) :
    s.Keeps (.control w v p handover) ↔ handover = .done ∧
      v.ending (s.info c).forceControl ≠ .threw ∧ v.ending (s.info c).forceControl ≠ .nothing := by
  unfold State.Keeps
  rw [← v.kept_iff]
  refine and_congr_right fun _ => ⟨fun hall => hall c hw, ?_⟩
  intro hkept x hx
  have heq : (w, c) = (w, x) := List.inj_on_of_nodup_map h.workers hw hx rfl
  cases heq
  exact hkept

theorem step_leaves {s s' : State} {i : Step} {o : Outcome} (h : Sound none s)
    (hstep : step s i = some (o, s')) : ∃ away, Leaves (s.Keeps i) o s' away := by
  unfold step at hstep
  cases i with
  | accept c a =>
    obtain ⟨⟨hnew, hfresh⟩, hstep⟩ := Option.ite_none_right_eq_some.mp hstep
    obtain ⟨rfl, rfl⟩ := Prod.mk.inj (Option.some.inj hstep)
    exact accept_leaves h hnew hfresh
  | register registered =>
    rcases hmessages : s.messages with _ | ⟨⟨h₀, c⟩, messages⟩
    · rw [hmessages] at hstep
      cases hstep
    · rw [hmessages] at hstep
      obtain ⟨rfl, rfl⟩ := Prod.mk.inj (Option.some.inj hstep)
      obtain ⟨hc, rfl, hlisted, hscheduled, haway⟩ := h.unmessage hmessages
      cases registered with
      | true => exact ⟨none, leaves_none (haway.watch hc hlisted hscheduled) rfl trivial⟩
      | false => exact ⟨some c, leaves_away haway hc (by simp [State.Keeps])⟩
  | fire e event p handover =>
    obtain ⟨he, hstep⟩ := Option.ite_none_right_eq_some.mp hstep
    obtain ⟨rfl, rfl⟩ := Prod.mk.inj (Option.some.inj hstep)
    obtain ⟨c, hc, hlisted, hscheduled, haway⟩ := h.unwatch he
    exact newData_leaves haway hc hlisted hscheduled event p
  | getConnection w =>
    obtain ⟨hw, hstep⟩ := Option.ite_none_left_eq_some.mp hstep
    rcases hget : s.queues.getConnection with ⟨_ | ⟨p, k⟩, q⟩
    · rw [hget] at hstep
      obtain ⟨rfl, rfl⟩ := Prod.mk.inj (Option.some.inj hstep)
      exact ⟨none, leaves_none (h.popNone hget) trivial trivial⟩
    · rw [hget] at hstep
      obtain ⟨rfl, rfl⟩ := Prod.mk.inj (Option.some.inj hstep)
      obtain ⟨hk, haway⟩ := h.pop hget
      have hmodify := haway.modify hk (f := fun k => { k with scheduled := false })
        (fun _ => rfl) (fun _ => rfl)
      exact ⟨none, leaves_none (hmodify.own hk hw) trivial trivial⟩
  | control w v p handover =>
    obtain ⟨⟨w', c⟩, hfind, hstep⟩ := Option.bind_eq_some_iff.mp hstep
    obtain ⟨rfl, rfl⟩ := Prod.mk.inj (Option.some.inj hstep)
    have hmem := List.mem_of_find?_eq_some hfind
    obtain rfl : w' = w := by simpa using List.find?_some hfind
    obtain ⟨hc, haway⟩ := h.release hmem
    have hmodify := haway.modify hc (f := (v.ending (s.info c).forceControl).forceControl)
      (fun k => by unfold Ending.forceControl; split <;> rfl)
      (fun k => by unfold Ending.forceControl; split <;> rfl)
    rw [control_keeps_iff h hmem]
    exact step_control handover hmodify hc p (v.ending (s.info c).forceControl)

end Step

/-! ## Runs -/

section Run

variable (is : List Step)

theorem sound_of_keeps (h : ∀ e ∈ Run.run step is State.init, e.before.Keeps e.input) :
    Sound none (Run.last step is State.init) := by
  refine @Run.run_history _ _ _ step (fun l s => (∀ e ∈ l, e.before.Keeps e.input) → Sound none s)
    ?_ _ (fun _ => sound_init) is h
  intro l s i o s' hl hstep hkeeps
  have hs := hl (fun e he => hkeeps e (List.mem_append_left _ he))
  obtain ⟨away, hleaves⟩ := step_leaves hs hstep
  have hi := hkeeps ⟨s, i, o⟩ (by simp)
  obtain ⟨rfl, -⟩ := hleaves.settled.mp hi
  exact hleaves.sound

end Run

/-- A client of the control protocol whose login is wrong. -/
def refusedLogin : ControlRequest :=
  ⟨false, 0, CONTROL_OK, 0, 0, [], true, false, true, false⟩

/-- It connects, sends its request, and a worker takes it. -/
def loginRun : List Step :=
  [.accept 7 ⟨5, false, false, ⟨-1, none⟩, .done⟩, .fire 5 .read ⟨-1, none⟩ .done, .getConnection 0,
    .control 0 ⟨0, .bytes 40, none, some (.control refusedLogin)⟩ ⟨-1, none⟩ .done]

end MyServer.Lifecycle
