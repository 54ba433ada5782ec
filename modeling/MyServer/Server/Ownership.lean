import MyServer.Server.Lifecycle

/-!
# Who has a connection

At any time at most one connection is between two places, and then only within a
step. It is away until it is given to the next place, or is deleted.
-/

namespace MyServer.Lifecycle

open Server Server.ClientsThread
open Scheduler (ReadyQueues)

/-! ## Places -/

def countIn (l : List Scheduler.Connection) (c : ConnectionPtr) : Nat := (l.map (·.id)).count c

/-- How often a connection is in the ready queues. -/
def queued (q : ReadyQueues) (c : ConnectionPtr) : Nat :=
  countIn (q.ready 0) c + countIn (q.ready 1) c + countIn (q.ready 2) c

namespace State

variable (s : State) (c : ConnectionPtr)

/-- How often it waits in the event loop, or for it to take up its message. -/
def waiting : Nat := (s.messages.map (·.2)).count c + s.events.count (s.info c).handle

/-- How often it is with a worker. -/
def held : Nat := (s.owned.map (·.2)).count c

def places : Nat := s.waiting c + queued s.queues c + s.held c

/-- Every live connection waits, is ready, or is with one worker. -/
def OneHome : Prop := ∀ c ∈ s.live, s.places c = 1

end State

/-- The state is in order, but for one connection that may be away from its place. -/
structure Sound (away : Option ConnectionPtr) (s : State) : Prop where
  nodup : s.live.Nodup
  handles : ∀ c ∈ s.live, ∀ c' ∈ s.live, (s.info c).handle = (s.info c').handle → c = c'
  noHandler : ∀ c ∈ s.live, (s.info c).schedulerHandler = false
  home : ∀ c ∈ s.live, s.places c = if away = some c then 0 else 1
  strangers : ∀ c, c ∉ s.live →
    (s.messages.map (·.2)).count c = 0 ∧ queued s.queues c = 0 ∧ s.held c = 0
  messages : ∀ m ∈ s.messages, (s.info m.2).handle = m.1 ∧ s.connections m.1 = some m.2 ∧
    (s.info m.2).scheduled = false
  events : ∀ h ∈ s.events, ∃ c ∈ s.live, (s.info c).handle = h ∧ s.connections h = some c ∧
    (s.info c).scheduled = false
  workers : (s.owned.map (·.1)).Nodup

theorem Sound.oneHome {s : State} (h : Sound none s) : s.OneHome := by
  intro c hc
  simpa using h.home c hc

theorem Sound.not_oneHome {s : State} {c : ConnectionPtr} (h : Sound (some c) s) (hc : c ∈ s.live) :
    ¬ s.OneHome := by
  intro hhome
  have h0 := h.home c hc
  have h1 := hhome c hc
  simp at h0
  omega

/-- Only of live connections there are messages. -/
theorem Sound.message_live {away : Option ConnectionPtr} {s : State} (h : Sound away s)
    {m : Handle × ConnectionPtr} (hm : m ∈ s.messages) : m.2 ∈ s.live := by
  by_contra hnot
  exact List.count_eq_zero.mp (h.strangers m.2 hnot).1 (List.mem_map_of_mem hm)

theorem sound_init : Sound none State.init := by
  constructor <;> simp [State.init, State.held, queued, countIn, noneReady]

/-! ## The ready queues -/

theorem queued_update (f : Nat → List Scheduler.Connection) {p : Nat}
    (hp : p < Scheduler.priorityClasses) (v : List Scheduler.Connection) (c : ConnectionPtr)
    {q q' : ReadyQueues} (hq : q.ready = f) (hq' : q'.ready = Function.update f p v) :
    queued q' c + countIn (f p) c = queued q c + countIn v c := by
  unfold Scheduler.priorityClasses at hp
  unfold queued
  rw [hq, hq']
  interval_cases p <;> simp [Function.update] <;> omega

theorem queued_push (q : ReadyQueues) (k : Scheduler.Connection) (c : ConnectionPtr) :
    queued (q.push k) c = queued q c + if k.id = c then 1 else 0 := by
  have h := queued_update q.ready k.readyClass_lt (q.ready k.readyClass ++ [k]) c rfl
    (show (q.push k).ready = _ from rfl)
  simp only [countIn, List.map_append, List.count_append, List.map_cons, List.map_nil,
    List.count_singleton, beq_iff_eq] at h
  omega

theorem queued_getConnection_none {q q' : ReadyQueues} (h : q.getConnection = (none, q'))
    (c : ConnectionPtr) : queued q' c = queued q c := by
  rcases q.getConnection_cases with ⟨hget, -⟩ | ⟨k, p, k', q'', hget, -⟩
  · rw [hget] at h
    cases h
    simp [queued]
  · rw [hget] at h
    cases h

theorem queued_getConnection_some {q q' : ReadyQueues} {p : Nat} {k : Scheduler.Connection}
    (h : q.getConnection = (some (p, k), q')) (c : ConnectionPtr) :
    queued q' c + (if k.id = c then 1 else 0) = queued q c := by
  rcases q.getConnection_cases with ⟨hget, -⟩ | ⟨n, p', k', q'', hget, -, hfinds⟩
  · rw [hget] at h
    cases h
  · rw [hget] at h
    cases h
    obtain ⟨rest, hfront, hready⟩ := hfinds.ready
    have hp : p < Scheduler.priorityClasses := by
      rw [hfinds.current]
      exact Nat.mod_lt _ (by decide)
    have hcount := queued_update q.ready hp rest c rfl hready
    simp only [hfront, countIn, List.map_cons, List.count_cons, beq_iff_eq] at hcount
    omega

/-! ## Away and back -/

section Away

variable {s : State} {c : ConnectionPtr}

/-- A connection that is away is in no place. -/
theorem Sound.nowhere (h : Sound (some c) s) (hc : c ∈ s.live) :
    (s.messages.map (·.2)).count c = 0 ∧ s.events.count (s.info c).handle = 0 ∧
      queued s.queues c = 0 ∧ s.held c = 0 := by
  have hhome := h.home c hc
  rw [if_pos rfl] at hhome
  unfold State.places State.waiting at hhome
  omega

theorem Sound.message_ne (h : Sound (some c) s) (hc : c ∈ s.live) {m : Handle × ConnectionPtr}
    (hm : m ∈ s.messages) : m.2 ≠ c := by
  rintro rfl
  exact List.count_eq_zero.mp (h.nowhere hc).1 (List.mem_map_of_mem hm)

theorem Sound.event_ne (h : Sound (some c) s) (hc : c ∈ s.live) {x : ConnectionPtr}
    (hx : (s.info x).handle ∈ s.events) : x ≠ c := by
  rintro rfl
  exact List.count_eq_zero.mp (h.nowhere hc).2.1 hx

theorem Sound.handle_ne (h : Sound (some c) s) (hc : c ∈ s.live) {x : ConnectionPtr}
    (hx : x ∈ s.live) (hne : x ≠ c) : (s.info x).handle ≠ (s.info c).handle :=
  fun heq => hne (h.handles x hx c hc heq)

theorem modify_info_ne (f : Connection → Connection) {x : ConnectionPtr} (hx : x ≠ c) :
    (s.modify c f).info x = s.info x := Function.update_of_ne hx _ _

theorem modify_handle {f : Connection → Connection} (hf : ∀ k, (f k).handle = k.handle)
    (x : ConnectionPtr) : ((s.modify c f).info x).handle = (s.info x).handle := by
  unfold State.modify
  by_cases hx : x = c
  · subst hx
    simp [hf]
  · simp [hx]

theorem Sound.modify (h : Sound (some c) s) (hc : c ∈ s.live) {f : Connection → Connection}
    (hf : ∀ k, (f k).handle = k.handle) (hg : ∀ k, (f k).schedulerHandler = k.schedulerHandler) :
    Sound (some c) (s.modify c f) where
  nodup := h.nodup
  handles x hx x' hx' heq := by
    rw [modify_handle hf, modify_handle hf] at heq
    exact h.handles x hx x' hx' heq
  noHandler x hx := by
    have hx' := h.noHandler x hx
    unfold State.modify
    by_cases hxc : x = c
    · subst hxc
      simp [hg, hx']
    · simp [hxc, hx']
  home x hx := by
    have hx' := h.home x hx
    unfold State.places State.waiting at hx' ⊢
    rw [modify_handle hf]
    exact hx'
  strangers := h.strangers
  messages m hm := by
    rw [modify_info_ne f (h.message_ne hc hm)]
    exact h.messages m hm
  events e he := by
    obtain ⟨x, hx, hhandle, hlisted⟩ := h.events e he
    have hne : x ≠ c := h.event_ne hc (hhandle ▸ he)
    refine ⟨x, hx, ?_⟩
    rw [modify_info_ne f hne]
    exact ⟨hhandle, hlisted⟩
  workers := h.workers

/-- The map may take or drop the handle of a connection that is away. -/
theorem Sound.remap (h : Sound (some c) s) (hc : c ∈ s.live) (r : Option ConnectionPtr) :
    Sound (some c)
      { s with connections := Function.update s.connections (s.info c).handle r } where
  nodup := h.nodup
  handles := h.handles
  noHandler := h.noHandler
  home := h.home
  strangers := h.strangers
  messages m hm := by
    obtain ⟨hhandle, hlisted, hscheduled⟩ := h.messages m hm
    have hne : m.1 ≠ (s.info c).handle := by
      rw [← hhandle]
      exact h.handle_ne hc (h.message_live hm) (h.message_ne hc hm)
    dsimp only
    rw [Function.update_of_ne hne]
    exact ⟨hhandle, hlisted, hscheduled⟩
  events e he := by
    obtain ⟨x, hx, hhandle, hlisted, hscheduled⟩ := h.events e he
    have hne : e ≠ (s.info c).handle := by
      rw [← hhandle]
      exact h.handle_ne hc hx (h.event_ne hc (hhandle ▸ he))
    refine ⟨x, hx, hhandle, ?_, hscheduled⟩
    dsimp only
    rw [Function.update_of_ne hne]
    exact hlisted
  workers := h.workers

/-! ### Giving it away -/

theorem Sound.push (h : Sound (some c) s) (hc : c ∈ s.live) (p : Priorities) :
    Sound none { s with queues := s.queues.push ⟨c, p.priority, p.hostPriority⟩ } where
  nodup := h.nodup
  handles := h.handles
  noHandler := h.noHandler
  home x hx := by
    have hx' := h.home x hx
    unfold State.places State.waiting State.held at hx' ⊢
    dsimp only
    rw [queued_push]
    simp only [Option.some.injEq, reduceCtorEq, if_false] at hx' ⊢
    split_ifs at hx' ⊢ <;> omega
  strangers x hx := by
    have hne : c ≠ x := fun heq => hx (heq ▸ hc)
    obtain ⟨hmessages, hqueued, hheld⟩ := h.strangers x hx
    refine ⟨hmessages, ?_, hheld⟩
    rw [queued_push, if_neg hne, hqueued]
  messages := h.messages
  events := h.events
  workers := h.workers

theorem Sound.message (h : Sound (some c) s) (hc : c ∈ s.live)
    (hlisted : s.connections (s.info c).handle = some c)
    (hscheduled : (s.info c).scheduled = false) :
    Sound none { s with messages := s.messages ++ [((s.info c).handle, c)] } where
  nodup := h.nodup
  handles := h.handles
  noHandler := h.noHandler
  home x hx := by
    have hx' := h.home x hx
    unfold State.places State.waiting State.held at hx' ⊢
    simp only [List.map_append, List.count_append, List.map_cons, List.map_nil,
      List.count_singleton, beq_iff_eq, Option.some.injEq, reduceCtorEq, if_false] at hx' ⊢
    split_ifs at hx' ⊢ <;> omega
  strangers x hx := by
    have hne : c ≠ x := fun heq => hx (heq ▸ hc)
    obtain ⟨hmessages, hqueued, hheld⟩ := h.strangers x hx
    refine ⟨?_, hqueued, hheld⟩
    simpa [hne] using hmessages
  messages m hm := by
    rcases List.mem_append.mp hm with hm | hm
    · exact h.messages m hm
    · obtain rfl := List.mem_singleton.mp hm
      exact ⟨rfl, hlisted, hscheduled⟩
  events := h.events
  workers := h.workers

theorem Sound.watch (h : Sound (some c) s) (hc : c ∈ s.live)
    (hlisted : s.connections (s.info c).handle = some c)
    (hscheduled : (s.info c).scheduled = false) :
    Sound none { s with events := (s.info c).handle :: s.events } where
  nodup := h.nodup
  handles := h.handles
  noHandler := h.noHandler
  home x hx := by
    have hx' := h.home x hx
    have hhandle : (s.info c).handle = (s.info x).handle ↔ c = x :=
      ⟨h.handles c hc x hx, fun heq => by rw [heq]⟩
    unfold State.places State.waiting State.held at hx' ⊢
    simp only [List.count_cons, beq_iff_eq, hhandle, Option.some.injEq, reduceCtorEq,
      if_false] at hx' ⊢
    split_ifs at hx' ⊢ <;> omega
  strangers := h.strangers
  messages := h.messages
  events e he := by
    rcases List.mem_cons.mp he with rfl | he
    · exact ⟨c, hc, rfl, hlisted, hscheduled⟩
    · exact h.events e he
  workers := h.workers

theorem Sound.own (h : Sound (some c) s) (hc : c ∈ s.live) {w : Nat}
    (hw : w ∉ s.owned.map (·.1)) : Sound none { s with owned := (w, c) :: s.owned } where
  nodup := h.nodup
  handles := h.handles
  noHandler := h.noHandler
  home x hx := by
    have hx' := h.home x hx
    unfold State.places State.waiting State.held at hx' ⊢
    simp only [List.map_cons, List.count_cons, beq_iff_eq, Option.some.injEq, reduceCtorEq,
      if_false] at hx' ⊢
    split_ifs at hx' ⊢ <;> omega
  strangers x hx := by
    have hne : c ≠ x := fun heq => hx (heq ▸ hc)
    obtain ⟨hmessages, hqueued, hheld⟩ := h.strangers x hx
    refine ⟨hmessages, hqueued, ?_⟩
    unfold State.held at hheld ⊢
    simpa [hne] using hheld
  messages := h.messages
  events := h.events
  workers := List.nodup_cons.mpr ⟨hw, h.workers⟩

theorem Sound.forget (h : Sound (some c) s) (hc : c ∈ s.live) :
    Sound none { s with live := s.live.erase c } where
  nodup := h.nodup.erase c
  handles x hx x' hx' := h.handles x (List.mem_of_mem_erase hx) x' (List.mem_of_mem_erase hx')
  noHandler x hx := h.noHandler x (List.mem_of_mem_erase hx)
  home x hx := by
    obtain ⟨hne, hlive⟩ := h.nodup.mem_erase_iff.mp hx
    have hx' := h.home x hlive
    simp only [Option.some.injEq, hne.symm, reduceCtorEq, if_false] at hx' ⊢
    exact hx'
  strangers x hx := by
    by_cases hxc : x = c
    · subst hxc
      obtain ⟨hmessages, -, hqueued, hheld⟩ := h.nowhere hc
      exact ⟨hmessages, hqueued, hheld⟩
    · exact h.strangers x (fun hlive => hx (h.nodup.mem_erase_iff.mpr ⟨hxc, hlive⟩))
  messages := h.messages
  events e he := by
    obtain ⟨x, hx, hhandle, hlisted⟩ := h.events e he
    have hne : x ≠ c := h.event_ne hc (hhandle ▸ he)
    exact ⟨x, h.nodup.mem_erase_iff.mpr ⟨hne, hx⟩, hhandle, hlisted⟩
  workers := h.workers

/-! ### Taking it -/

theorem Sound.enter (h : Sound none s) (hc : c ∉ s.live) {k : Connection}
    (hk : k.schedulerHandler = false) (hfresh : ∀ x ∈ s.live, (s.info x).handle ≠ k.handle) :
    Sound (some c) { s with live := c :: s.live, info := Function.update s.info c k } := by
  have hinfo : ∀ x ∈ s.live, Function.update s.info c k x = s.info x := by
    intro x hx
    exact Function.update_of_ne (fun heq : x = c => hc (heq ▸ hx)) _ _
  constructor
  · exact List.nodup_cons.mpr ⟨hc, h.nodup⟩
  · intro x hx x' hx' heq
    dsimp only at heq
    rcases List.mem_cons.mp hx with rfl | hlive <;> rcases List.mem_cons.mp hx' with rfl | hlive'
    · rfl
    · rw [Function.update_self, hinfo x' hlive'] at heq
      exact absurd heq.symm (hfresh x' hlive')
    · rw [Function.update_self, hinfo x hlive] at heq
      exact absurd heq (hfresh x hlive)
    · rw [hinfo x hlive, hinfo x' hlive'] at heq
      exact h.handles x hlive x' hlive' heq
  · intro x hx
    dsimp only
    rcases List.mem_cons.mp hx with rfl | hx
    · rw [Function.update_self, hk]
    · rw [hinfo x hx]
      exact h.noHandler x hx
  · intro x hx
    unfold State.places State.waiting State.held
    dsimp only
    rcases List.mem_cons.mp hx with rfl | hx
    · obtain ⟨hmessages, hqueued, hheld⟩ := h.strangers x hc
      have hevents : s.events.count k.handle = 0 := by
        apply List.count_eq_zero.mpr
        intro he
        obtain ⟨y, hy, hhandle, -⟩ := h.events _ he
        exact hfresh y hy hhandle
      unfold State.held at hheld
      rw [Function.update_self, hmessages, hqueued, hheld, hevents, if_pos rfl]
    · have hne : c ≠ x := fun heq => hc (heq ▸ hx)
      have hx' := h.home x hx
      rw [hinfo x hx]
      simpa [State.places, State.waiting, State.held, hne] using hx'
  · intro x hx
    exact h.strangers x (fun hlive => hx (List.mem_cons_of_mem _ hlive))
  · intro m hm
    dsimp only
    rw [hinfo m.2 (h.message_live hm)]
    exact h.messages m hm
  · intro e he
    obtain ⟨x, hx, hlisted⟩ := h.events e he
    refine ⟨x, List.mem_cons_of_mem _ hx, ?_⟩
    dsimp only
    rw [hinfo x hx]
    exact hlisted
  · exact h.workers

theorem Sound.unmessage {h₀ : Handle} {messages : List (Handle × ConnectionPtr)}
    (h : Sound none s) (hs : s.messages = (h₀, c) :: messages) :
    c ∈ s.live ∧ (s.info c).handle = h₀ ∧ s.connections h₀ = some c ∧
      (s.info c).scheduled = false ∧ Sound (some c) { s with messages := messages } := by
  have hmem : (h₀, c) ∈ s.messages := hs ▸ List.mem_cons_self
  obtain ⟨hhandle, hlisted, hscheduled⟩ := h.messages _ hmem
  have hlive : c ∈ s.live := h.message_live hmem
  refine ⟨hlive, hhandle, hlisted, hscheduled, h.nodup, h.handles, h.noHandler, ?_, ?_, ?_,
    h.events, h.workers⟩
  · intro x hx
    have hx' := h.home x hx
    unfold State.places State.waiting State.held at hx' ⊢
    simp only [hs, List.map_cons, List.count_cons, beq_iff_eq, Option.some.injEq, reduceCtorEq,
      if_false] at hx' ⊢
    split_ifs at hx' ⊢ <;> omega
  · intro x hx
    have hne : c ≠ x := fun heq => hx (heq ▸ hlive)
    have hx' := h.strangers x hx
    simpa [hs, hne, State.held] using hx'
  · intro m hm
    exact h.messages m (hs ▸ List.mem_cons_of_mem _ hm)

theorem Sound.unwatch {e : Handle} (h : Sound none s) (he : e ∈ s.events) :
    ∃ c ∈ s.live, s.connections e = some c ∧ (s.info c).scheduled = false ∧
      Sound (some c) { s with events := s.events.erase e } := by
  obtain ⟨c, hlive, rfl, hlisted, hscheduled⟩ := h.events e he
  refine ⟨c, hlive, hlisted, hscheduled, h.nodup, h.handles, h.noHandler, ?_, h.strangers,
    h.messages, fun e' he' => h.events e' (List.mem_of_mem_erase he'), h.workers⟩
  intro x hx
  have hx' := h.home x hx
  have hhandle : (s.info x).handle = (s.info c).handle ↔ c = x :=
    ⟨fun heq => (h.handles x hx c hlive heq).symm, fun heq => by rw [heq]⟩
  have hpos := List.count_pos_iff.mpr he
  unfold State.places State.waiting State.held at hx' ⊢
  simp only [List.count_erase, beq_iff_eq, Option.some.injEq, reduceCtorEq, if_false] at hx' ⊢
  by_cases hcx : c = x
  · subst hcx
    rw [if_pos rfl, if_pos rfl]
    omega
  · rw [if_neg (fun heq => hcx (hhandle.mp heq.symm)), if_neg hcx]
    exact hx'

theorem Sound.pop {q : ReadyQueues} {p : Nat} {k : Scheduler.Connection} (h : Sound none s)
    (hget : s.queues.getConnection = (some (p, k), q)) :
    k.id ∈ s.live ∧ Sound (some k.id) { s with queues := q } := by
  have hcount := queued_getConnection_some hget
  have hlive : k.id ∈ s.live := by
    by_contra hnot
    have hk := hcount k.id
    rw [if_pos rfl, (h.strangers k.id hnot).2.1] at hk
    omega
  refine ⟨hlive, h.nodup, h.handles, h.noHandler, ?_, ?_, h.messages, h.events, h.workers⟩
  · intro x hx
    have hx' := h.home x hx
    have hk := hcount x
    unfold State.places State.waiting State.held at hx' ⊢
    simp only [Option.some.injEq, reduceCtorEq, if_false] at hx' ⊢
    split_ifs at hk ⊢ <;> omega
  · intro x hx
    obtain ⟨hmessages, hqueued, hheld⟩ := h.strangers x hx
    have hk := hcount x
    exact ⟨hmessages, by dsimp only; omega, hheld⟩

theorem Sound.popNone {q : ReadyQueues} (h : Sound none s)
    (hget : s.queues.getConnection = (none, q)) : Sound none { s with queues := q } := by
  have hcount := queued_getConnection_none hget
  refine ⟨h.nodup, h.handles, h.noHandler, ?_, ?_, h.messages, h.events, h.workers⟩
  · intro x hx
    have hx' := h.home x hx
    unfold State.places State.waiting State.held at hx' ⊢
    rw [hcount]
    exact hx'
  · intro x hx
    rw [hcount]
    exact h.strangers x hx

/-- Letting go of what one worker has. -/
theorem count_release {owned : List (Nat × ConnectionPtr)} {w : Nat}
    (hnodup : (owned.map (·.1)).Nodup) (hw : (w, c) ∈ owned) (x : ConnectionPtr) :
    ((owned.filter (·.1 ≠ w)).map (·.2)).count x + (if c = x then 1 else 0) =
      (owned.map (·.2)).count x := by
  induction owned with
  | nil => exact absurd hw List.not_mem_nil
  | cons y ys ih =>
    obtain ⟨hy, hys⟩ := List.nodup_cons.mp hnodup
    rcases List.mem_cons.mp hw with rfl | hmem
    · have hall : ys.filter (·.1 ≠ w) = ys := by
        apply List.filter_eq_self.mpr
        intro z hz
        have hz' : z.1 ∈ ys.map (·.1) := List.mem_map_of_mem hz
        have hne : z.1 ≠ w := fun heq => hy (heq ▸ hz')
        simpa using hne
      rw [List.filter_cons_of_neg (by simp), hall, List.map_cons, List.count_cons]
      simp only [beq_iff_eq]
    · have hw' : w ∈ ys.map (·.1) := List.mem_map_of_mem hmem
      have hne : y.1 ≠ w := by
        rintro rfl
        exact hy hw'
      have hrest := ih hys hmem
      rw [List.filter_cons_of_pos (by simpa using hne)]
      simp only [List.map_cons, List.count_cons]
      omega

theorem Sound.release {w : Nat} (h : Sound none s) (hw : (w, c) ∈ s.owned) :
    c ∈ s.live ∧ Sound (some c) (s.release w) := by
  have hcount := count_release h.workers hw
  have hlive : c ∈ s.live := by
    by_contra hnot
    exact List.count_eq_zero.mp (h.strangers c hnot).2.2 (List.mem_map_of_mem hw)
  refine ⟨hlive, h.nodup, h.handles, h.noHandler, ?_, ?_, h.messages, h.events, ?_⟩
  · intro x hx
    have hx' := h.home x hx
    have hc := hcount x
    unfold State.release State.places State.waiting State.held at *
    simp only [Option.some.injEq, reduceCtorEq, if_false] at hx' ⊢
    split_ifs at hc ⊢ <;> omega
  · intro x hx
    obtain ⟨hmessages, hqueued, hheld⟩ := h.strangers x hx
    have hc := hcount x
    unfold State.release State.held at *
    exact ⟨hmessages, hqueued, by dsimp only; omega⟩
  · exact (List.filter_sublist.map _).nodup h.workers

end Away

end MyServer.Lifecycle
