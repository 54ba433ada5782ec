import MyServer.Scheduler.Ready
import MyServer.Lib.Turns

/-!
# What the connections scheduler promises

Whatever the threads do in between, a queue loses nothing and keeps its order,
and no class waits for more than the turns of the others.
-/

namespace MyServer.Scheduler

open Finset (range)

/-! ## One step -/

/-- The connections that a call of `getConnection` may find and what it takes to reach them. -/
def State.tokens (s : State) : Nat := s.unannounced + s.readySemaphore + s.inside

theorem step_cases {s s' : State} {i : Step} {o : Outcome} (h : step s i = some (o, s')) :
    (∃ c, o = .pushed c.readyClass c ∧ s'.queues = s.queues.push c ∧
      s'.tokens = s.tokens + 1) ∨
    (o = .silent ∧ s'.queues = s.queues ∧ s.tokens ≤ s'.tokens) ∨
    (o = .returned s.queues.getConnection.1 ∧ s'.queues = s.queues.getConnection.2 ∧
      s.tokens = s'.tokens + 1) := by
  unfold step at h
  unfold State.tokens
  cases i with
  | push c =>
    obtain ⟨rfl, rfl⟩ := Prod.mk.inj (Option.some.inj h)
    exact Or.inl ⟨c, rfl, rfl, by dsimp only; omega⟩
  | unlock =>
    obtain ⟨hpos, h⟩ := Option.ite_none_right_eq_some.mp h
    obtain ⟨rfl, rfl⟩ := Prod.mk.inj (Option.some.inj h)
    exact Or.inr (Or.inl ⟨rfl, rfl, by dsimp only; omega⟩)
  | wake =>
    obtain ⟨rfl, rfl⟩ := Prod.mk.inj (Option.some.inj h)
    exact Or.inr (Or.inl ⟨rfl, rfl, by dsimp only; omega⟩)
  | lock =>
    obtain ⟨hpos, h⟩ := Option.ite_none_right_eq_some.mp h
    obtain ⟨rfl, rfl⟩ := Prod.mk.inj (Option.some.inj h)
    exact Or.inr (Or.inl ⟨rfl, rfl, by dsimp only; omega⟩)
  | get =>
    obtain ⟨hpos, h⟩ := Option.ite_none_right_eq_some.mp h
    obtain ⟨rfl, rfl⟩ := Prod.mk.inj (Option.some.inj h)
    exact Or.inr (Or.inr ⟨rfl, rfl, by dsimp only; omega⟩)

section Log

variable (l : Log) (p : Nat) (e : Run.Entry State Step Outcome)

theorem Log.pushed_concat :
    Log.pushed (l ++ [e]) p = Log.pushed l p ++ (e.outcome.pushedIn p).toList := by
  unfold Log.pushed
  rw [List.filterMap_append]
  cases h : e.outcome.pushedIn p <;> simp [h]

theorem Log.handed_concat :
    Log.handed (l ++ [e]) p = Log.handed l p ++ (e.outcome.handedFrom p).toList := by
  unfold Log.handed
  rw [List.filterMap_append]
  cases h : e.outcome.handedFrom p <;> simp [h]

theorem Log.calls_concat :
    Log.calls (l ++ [e]) = Log.calls l + if e.outcome.isReturn then 1 else 0 := by
  unfold Log.calls
  rw [List.countP_append, List.countP_singleton]

end Log

@[simp] theorem pushedIn_returned (p : Nat) (r : Option (Nat × Connection)) :
    (Outcome.returned r).pushedIn p = none := rfl

@[simp] theorem pushedIn_silent (p : Nat) : Outcome.silent.pushedIn p = none := rfl

@[simp] theorem handedFrom_pushed (p p' : Nat) (c : Connection) :
    (Outcome.pushed p' c).handedFrom p = none := rfl

@[simp] theorem handedFrom_silent (p : Nat) : Outcome.silent.handedFrom p = none := rfl

@[simp] theorem handedFrom_null (p : Nat) : (Outcome.returned none).handedFrom p = none := rfl

theorem pushedIn_pushed (p p' : Nat) (c : Connection) :
    (Outcome.pushed p' c).pushedIn p = if p' = p then some c else none := rfl

theorem handedFrom_returned (p p' : Nat) (c : Connection) :
    (Outcome.returned (some (p', c))).handedFrom p = if p' = p then some c else none := rfl

/-! ## Conservation -/

/-- A queue and what entered it are what left it and the queue. -/
theorem step_conserves {s s' : State} {i : Step} {o : Outcome} (h : step s i = some (o, s'))
    (p : Nat) : s.queues.ready p ++ (o.pushedIn p).toList =
      (o.handedFrom p).toList ++ s'.queues.ready p := by
  rcases step_cases h with ⟨c, rfl, hq, -⟩ | ⟨rfl, hq, -⟩ | ⟨rfl, hq, -⟩
  · rw [hq, handedFrom_pushed, pushedIn_pushed]
    unfold ReadyQueues.push
    dsimp only
    by_cases hp : c.readyClass = p
    · subst hp
      simp
    · rw [if_neg hp, Function.update_of_ne (Ne.symm hp)]
      simp
  · rw [hq]
    simp
  · rw [hq, pushedIn_returned]
    rcases s.queues.getConnection_cases with ⟨hget, -⟩ | ⟨k, p', c, q', hget, -, hfinds⟩
    · rw [hget]
      simp
    · obtain ⟨rest, hfront, hready⟩ := hfinds.ready
      rw [hget, handedFrom_returned]
      dsimp only
      rw [hready]
      by_cases hp : p' = p
      · subst hp
        simp [hfront]
      · rw [if_neg hp, Function.update_of_ne (Ne.symm hp)]
        simp

theorem run_conserves (s : State) (is : List Step) (p : Nat) :
    s.queues.ready p ++ Log.pushed (Run.run step is s) p =
      Log.handed (Run.run step is s) p ++ (Run.last step is s).queues.ready p := by
  refine @Run.run_history State Step Outcome step
    (fun l s' => s.queues.ready p ++ Log.pushed l p = Log.handed l p ++ s'.queues.ready p)
    ?_ s (by simp [Log.pushed, Log.handed]) is
  intro l s₁ i o s₂ hl h
  rw [Log.pushed_concat, Log.handed_concat, ← List.append_assoc, hl, List.append_assoc,
    step_conserves h, List.append_assoc]

/-- Nothing is returned only from empty queues. -/
theorem step_null {s s' : State} {i : Step} (h : step s i = some (.returned none, s')) :
    ∀ p < priorityClasses, s.queues.ready p = [] := by
  rcases step_cases h with ⟨c, ho, -⟩ | ⟨ho, -⟩ | ⟨ho, -⟩
  · cases ho
  · cases ho
  · rcases s.queues.getConnection_cases with ⟨-, hempty⟩ | ⟨k, p', c, q', hget, -⟩
    · exact hempty
    · rw [hget] at ho
      cases ho

/-! ## No lost wake-up -/

def ReadyQueues.queued (q : ReadyQueues) : Nat := ∑ p ∈ range priorityClasses, (q.ready p).length

theorem sum_update (f : Nat → List Connection) {p : Nat} (hp : p < priorityClasses)
    (v : List Connection) :
    ∑ i ∈ range priorityClasses, (Function.update f p v i).length + (f p).length =
      ∑ i ∈ range priorityClasses, (f i).length + v.length := by
  have hmem := Finset.mem_range.mpr hp
  have hrest : ∑ i ∈ (range priorityClasses).erase p, (Function.update f p v i).length =
      ∑ i ∈ (range priorityClasses).erase p, (f i).length := by
    apply Finset.sum_congr rfl
    intro i hi
    rw [Function.update_of_ne (Finset.ne_of_mem_erase hi)]
  rw [← Finset.add_sum_erase _ _ hmem, ← Finset.add_sum_erase _ (fun i => (f i).length) hmem,
    hrest, Function.update_self]
  omega

/-- Whatever is in a queue, a call is on its way to it or the semaphore will let one through. -/
theorem step_awake {s s' : State} {i : Step} {o : Outcome} (h : step s i = some (o, s'))
    (hs : s.queues.queued ≤ s.tokens) : s'.queues.queued ≤ s'.tokens := by
  rcases step_cases h with ⟨c, -, hq, htokens⟩ | ⟨-, hq, htokens⟩ | ⟨-, hq, htokens⟩
  · have hsum := sum_update s.queues.ready c.readyClass_lt (s.queues.ready c.readyClass ++ [c])
    rw [List.length_append, List.length_singleton] at hsum
    rw [hq, htokens]
    unfold ReadyQueues.queued ReadyQueues.push at *
    dsimp only at *
    omega
  · rw [hq]
    exact le_trans hs htokens
  · rcases s.queues.getConnection_cases with ⟨hget, hempty⟩ | ⟨k, p, c, q', hget, -, hfinds⟩
    · rw [hq, hget]
      unfold ReadyQueues.queued
      dsimp only
      rw [ReadyQueues.turn_ready]
      rw [Finset.sum_eq_zero fun p hp => by rw [hempty p (Finset.mem_range.mp hp)]; rfl]
      exact Nat.zero_le _
    · obtain ⟨rest, hfront, hready⟩ := hfinds.ready
      have hp : p < priorityClasses := by
        rw [hfinds.current]
        exact Nat.mod_lt _ (by decide)
      have hsum := sum_update s.queues.ready hp rest
      rw [hfront, List.length_cons] at hsum
      rw [hq, hget]
      unfold ReadyQueues.queued at *
      dsimp only
      rw [hready]
      omega

/-- **No lost wake-up** in any run. -/
theorem run_awake (s : State) (hs : s.queues.queued ≤ s.tokens) (is : List Step) :
    (Run.last step is s).queues.queued ≤ (Run.last step is s).tokens :=
  Run.last_invariant (fun _ _ _ _ hs h => step_awake h hs) hs is

/-! ## Fairness -/

/-- A class is served once more often than its number before the next one has its turn. -/
def quota (p : Nat) : Nat := p + 1

/-- How often other classes may still be served before `c`. -/
def ReadyQueues.budget (q : ReadyQueues) (c : Nat) : Nat :=
  Turns.budget priorityClasses quota c q.currentPriority q.currentPriorityDone

def othersQuota (c : Nat) : Nat := ∑ p ∈ (range priorityClasses).erase c, quota p

theorem ReadyQueues.budget_le (q : ReadyQueues) {c : Nat} (hc : c < priorityClasses) :
    q.budget c ≤ othersQuota c := Turns.budget_le quota _ hc q.current_lt

/-- The turns that a search passes on cost a waiting class nothing. -/
theorem ReadyQueues.Finds.budget_turn {q q' : ReadyQueues} {k p c : Nat} {x : Connection}
    (h : q.Finds k p x q') (hc : c < priorityClasses) (hwaits : q.ready c ≠ []) :
    ∀ j ≤ k, (q.turn j).budget c ≤ q.budget c := by
  intro j hj
  induction j with
  | zero => exact le_rfl
  | succ j ih =>
    refine le_trans ?_ (ih (by omega))
    have hcurrent := q.turn_current j
    have hnext := q.turn_current (j + 1)
    unfold budget
    rw [q.turn_done (Nat.succ_pos j), hnext, ← Nat.add_assoc, ← Nat.mod_add_mod, ← hcurrent]
    apply Turns.budget_next quota hc (q.turn j).current_lt (Nat.succ_pos c)
    intro heq
    rcases Nat.eq_zero_or_pos j with rfl | hpos
    · rcases h.moves (by omega) with hdone | hempty
      · rw [← heq]
        exact hdone
      · rw [turn_zero] at heq
        rw [heq] at hempty
        exact absurd hempty hwaits
    · have hempty := h.passed j hpos (by omega)
      rw [← hcurrent, heq] at hempty
      exact absurd hempty hwaits

/-- Where a search ends, the class that it serves has some of its turn left. -/
theorem ReadyQueues.Finds.done_lt {q q' : ReadyQueues} {k p : Nat} {x : Connection}
    (h : q.Finds k p x q') : (q.turn k).currentPriorityDone < quota (q.turn k).currentPriority := by
  unfold quota
  rcases Nat.eq_zero_or_pos k with rfl | hpos
  · have hstays := h.stays rfl
    unfold TurnOver at hstays
    rw [turn_zero]
    omega
  · rw [q.turn_done hpos]
    omega

/-- **A search that serves another class** uses up what the waiting class has to endure. -/
theorem ReadyQueues.Finds.budget_lt {q q' : ReadyQueues} {k p c : Nat} {x : Connection}
    (h : q.Finds k p x q') (hc : c < priorityClasses) (hwaits : q.ready c ≠ []) (hne : p ≠ c) :
    q'.budget c + 1 ≤ q.budget c := by
  refine le_trans ?_ (h.budget_turn hc hwaits k le_rfl)
  obtain ⟨rest, -, rfl⟩ := h.front
  have hp : (q.turn k).currentPriority ≠ c := by
    rw [turn_current, ← h.current]
    exact hne
  exact (Turns.budget_serve quota hp h.done_lt).le

/-- **One step** of the wait: a call that does not serve `c` lowers its budget. -/
theorem step_budget {s s' : State} {i : Step} {o : Outcome} (h : step s i = some (o, s')) {c : Nat}
    (hc : c < priorityClasses) (hwaits : s.queues.ready c ≠ []) :
    (if o.isReturn then 1 else 0) + s'.queues.budget c ≤
      s.queues.budget c + (o.handedFrom c).toList.length * (othersQuota c + 1) := by
  rcases step_cases h with ⟨x, rfl, hq, -⟩ | ⟨rfl, hq, -⟩ | ⟨rfl, hq, -⟩
  · rw [hq]
    simp [Outcome.isReturn, ReadyQueues.budget]
  · rw [hq]
    simp [Outcome.isReturn]
  · rcases s.queues.getConnection_cases with ⟨-, hempty⟩ | ⟨k, p, x, q', hget, -, hfinds⟩
    · exact absurd (hempty c hc) hwaits
    · rw [hq, hget, handedFrom_returned]
      simp only [Outcome.isReturn, if_true]
      by_cases hp : p = c
      · have hle := q'.budget_le hc
        simp [hp]
        omega
      · have hlt := hfinds.budget_lt hc hwaits hp
        rw [if_neg hp]
        simp
        omega

/-- The longest wait of a connection behind `ahead` others of its class. -/
def maxCalls (c ahead : Nat) : Nat := ahead * (othersQuota c + 1) + othersQuota c

/-- **Bounded waiting.** A run whose calls gave away no more of the queue of `c` than what stands
before a connection has few calls. -/
theorem calls_le {s : State} {c : Nat} (hc : c < priorityClasses) {front back : List Connection}
    {x : Connection} (hready : s.queues.ready c = front ++ x :: back) (is : List Step)
    (hhanded : (Log.handed (Run.run step is s) c).length ≤ front.length) :
    Log.calls (Run.run step is s) ≤ maxCalls c front.length := by
  have hhistory := @Run.run_history State Step Outcome step
    (fun l s' => s.queues.ready c ++ Log.pushed l c = Log.handed l c ++ s'.queues.ready c ∧
      ((Log.handed l c).length ≤ front.length → Log.calls l + s'.queues.budget c ≤
        s.queues.budget c + (Log.handed l c).length * (othersQuota c + 1)))
    ?_ s ⟨by simp [Log.pushed, Log.handed], fun _ => by simp [Log.calls, Log.handed]⟩ is
  · have h := hhistory.2 hhanded
    have hbudget := s.queues.budget_le hc
    have hmul := Nat.mul_le_mul_right (othersQuota c + 1) hhanded
    unfold maxCalls
    omega
  · rintro l s₁ i o s₂ ⟨hconserved, hl⟩ h
    have hstep := step_conserves h c
    rw [Log.pushed_concat, Log.handed_concat, Log.calls_concat, List.length_append]
    refine ⟨?_, fun hle => ?_⟩
    · rw [← List.append_assoc, hconserved, List.append_assoc, hstep, List.append_assoc]
    · -- The connection is still in the queue, so `c` waits.
      have hwaits : s₁.queues.ready c ≠ [] := by
        intro hempty
        have hlen := congrArg List.length hconserved
        rw [hempty, hready] at hlen
        simp at hlen
        omega
      have hbudget := step_budget h hc hwaits
      have hprev := hl (by omega)
      dsimp only
      rw [Nat.add_mul]
      omega

/-- A call that serves `p` while another class waits. -/
def Favours (p : Nat) (e : Run.Entry State Step Outcome) : Prop :=
  (∃ c, e.outcome = .returned (some (p, c))) ∧
    ∃ q < priorityClasses, q ≠ p ∧ e.before.queues.ready q ≠ []

/-- The turn of `p` only grows while others wait. -/
theorem step_favours {s s' : State} {i : Step} {p : Nat} {c : Connection}
    (h : step s i = some (.returned (some (p, c)), s'))
    (hothers : ∃ q < priorityClasses, q ≠ p ∧ s.queues.ready q ≠ []) :
    s'.queues.currentPriority = p ∧ 0 < s'.queues.currentPriorityDone ∧
      s'.queues.currentPriorityDone ≤ p + 1 ∧
      (s.queues.currentPriority = p →
        s'.queues.currentPriorityDone = s.queues.currentPriorityDone + 1) := by
  rcases step_cases h with ⟨x, ho, -⟩ | ⟨ho, -⟩ | ⟨ho, hq, -⟩
  · cases ho
  · cases ho
  · rcases s.queues.getConnection_cases with ⟨hget, -⟩ | ⟨k, p', x, q', hget, hk, hfinds⟩
    · rw [hget] at ho
      cases ho
    · rw [hget] at ho hq
      cases ho
      obtain ⟨rest, -, hq'⟩ := hfinds.front
      have hdone := hfinds.done_lt
      have hcurrent := s.queues.turn_current k
      rw [← hfinds.current] at hcurrent
      unfold quota at hdone
      rw [hq, hq']
      unfold ReadyQueues.served
      dsimp only
      refine ⟨hcurrent, Nat.succ_pos _, by omega, fun heq => ?_⟩
      rcases Nat.eq_zero_or_pos k with rfl | hpos
      · rfl
      · -- A whole circle would have met the class that waits.
        obtain ⟨q, hqlt, hqne, hqwaits⟩ := hothers
        have hahead := Turns.add_ahead hqlt s.queues.current_lt
        have hpassed := hfinds.passed (Turns.ahead priorityClasses q s.queues.currentPriority)
          (Turns.ahead_pos hqlt s.queues.current_lt (by omega)) ?_
        · rw [hahead] at hpassed
          exact absurd hpassed hqwaits
        · have hlt := @Turns.ahead_lt priorityClasses q s.queues.currentPriority hqlt
          by_contra hge
          have hk' : k < priorityClasses := by omega
          have h0 := Turns.ahead_unique s.queues.current_lt hk' (hfinds.current.symm.trans heq.symm)
          rw [Turns.ahead_self s.queues.current_lt] at h0
          omega

theorem calls_le_of_favours (s : State) (p : Nat) (is : List Step)
    (hfavours : ∀ e ∈ Run.run step is s, e.outcome.isReturn → Favours p e) :
    Log.calls (Run.run step is s) ≤ p + 1 := by
  have hhistory := @Run.run_history State Step Outcome step
    (fun l s' => (∀ e ∈ l, e.outcome.isReturn → Favours p e) → Log.calls l = 0 ∨
      s'.queues.currentPriority = p ∧ Log.calls l ≤ s'.queues.currentPriorityDone ∧
        s'.queues.currentPriorityDone ≤ p + 1)
    ?_ s (fun _ => Or.inl rfl) is
  · rcases hhistory hfavours with h | ⟨-, h, h'⟩ <;> omega
  · intro l s₁ i o s₂ hl h hall
    have hl' := hl fun e he => hall e (List.mem_append_left _ he)
    have hlast := hall ⟨s₁, i, o⟩ (List.mem_append_right _ List.mem_cons_self)
    rw [Log.calls_concat]
    rcases step_cases h with ⟨x, rfl, hq, -⟩ | ⟨rfl, hq, -⟩ | ⟨rfl, hq, -⟩
    · rw [hq]
      simpa [Outcome.isReturn] using hl'
    · rw [hq]
      simpa [Outcome.isReturn] using hl'
    · obtain ⟨⟨c, ho⟩, hothers⟩ := hlast rfl
      dsimp only at ho
      rw [ho] at h
      obtain ⟨hcurrent, hpos, hdone, hgrows⟩ := step_favours h hothers
      simp only [Outcome.isReturn, if_true]
      refine Or.inr ⟨hcurrent, ?_, hdone⟩
      rcases hl' with h0 | ⟨hp, hcalls, -⟩
      · omega
      · have := hgrows hp
        omega

/-! ## The theorems -/

/-- **Conservation.** In every run from every state each queue gives out what it held and what was
put in it, in that order and without repetition or loss; a call comes back with nothing only where
all queues are empty; and enough calls reach every connection that is in a queue. -/
theorem connections_conserved (s : State) (is : List Step) :
    (∀ p, s.queues.ready p ++ Log.pushed (Run.run step is s) p =
      Log.handed (Run.run step is s) p ++ (Run.last step is s).queues.ready p) ∧
    (∀ e ∈ Run.run step is s, e.outcome = .returned none →
      ∀ p < priorityClasses, e.before.queues.ready p = []) ∧
    ∀ p < priorityClasses, ∀ front c back, s.queues.ready p = front ++ c :: back →
      maxCalls p front.length < Log.calls (Run.run step is s) →
      ∃ later, Log.handed (Run.run step is s) p = front ++ c :: later := by
  refine ⟨run_conserves s is, fun e he hnull => ?_, fun p hp front c back hready hcalls => ?_⟩
  · obtain ⟨-, s', hstep⟩ := @Run.run_invariant State Step Outcome step (fun _ => True)
      (fun _ _ _ _ _ _ => trivial) is s trivial e he
    rw [hnull] at hstep
    exact step_null hstep
  · have hconserved := run_conserves s is p
    rw [hready, List.append_assoc] at hconserved
    have hlong : front.length < (Log.handed (Run.run step is s) p).length := by
      by_contra hshort
      have := calls_le hp hready is (by omega)
      omega
    have hentered : front ++ [c] <+: Log.handed (Run.run step is s) p ++
        (Run.last step is s).queues.ready p := by
      refine ⟨back ++ Log.pushed (Run.run step is s) p, ?_⟩
      rw [← hconserved, List.append_assoc]
      rfl
    have hfront : front ++ [c] <+: Log.handed (Run.run step is s) p := by
      apply List.prefix_of_prefix_length_le hentered (List.prefix_append _ _)
      rw [List.length_append, List.length_singleton]
      omega
    obtain ⟨later, hlater⟩ := hfront
    exact ⟨later, by rw [← hlater, List.append_assoc]; rfl⟩

/-- Two connections of class 1 and one of class 2 in the queues, two calls at the semaphore. -/
def busyState : State where
  queues := {
    ready := fun p => if p = 1 then [⟨1, 1, none⟩, ⟨2, 1, none⟩] else if p = 2 then [⟨3, 2, none⟩] else []
    currentPriority := 1
    currentPriorityDone := 0
    current_lt := by decide }
  unannounced := 0
  readySemaphore := 1
  inside := 2

theorem busyState_conserved :
    Log.handed (Run.run step [.get, .lock, .get, .get] busyState) 2 = [⟨3, 2, none⟩] ∧
      ∃ later, Log.handed (Run.run step [.wake, .wake, .wake, .lock, .lock, .lock, .lock, .get, .get,
        .get, .get, .get, .get] busyState) 2 = [] ++ ⟨3, 2, none⟩ :: later :=
  ⟨by decide, (connections_conserved busyState _).2.2 2 (by decide) [] ⟨3, 2, none⟩ [] rfl
    (by decide)⟩

/-- **No starvation.** While the queue of `c` has a connection and none is given out, the calls stay
within the turns of the other classes, whatever is added; and no class is served more often in a
row than its number and once more while another one waits. -/
theorem no_class_starves (s : State) (is : List Step) :
    (∀ c < priorityClasses, s.queues.ready c ≠ [] → Log.handed (Run.run step is s) c = [] →
      Log.calls (Run.run step is s) ≤ 1 + ∑ p ∈ (range priorityClasses).erase c, (p + 1)) ∧
    ∀ p, (∀ e ∈ Run.run step is s, e.outcome.isReturn → Favours p e) →
      Log.calls (Run.run step is s) ≤ p + 1 := by
  refine ⟨fun c hc hwaits hnone => ?_, fun p hfavours => calls_le_of_favours s p is hfavours⟩
  obtain ⟨x, back, hready⟩ := List.exists_cons_of_ne_nil hwaits
  have hle := @calls_le s c hc [] back x hready is (by rw [hnone])
  unfold maxCalls othersQuota quota at hle
  rw [List.length_nil, Nat.zero_mul, Nat.zero_add] at hle
  omega

theorem busyState_not_starved :
    Log.calls (Run.run step [.get, .push ⟨4, 0, some 1⟩, .get] busyState) ≤
        1 + ∑ p ∈ (range priorityClasses).erase 2, (p + 1) ∧
      Log.calls (Run.run step [.get] busyState) ≤ 2 := by
  refine ⟨(no_class_starves busyState _).1 2 (by decide) (by decide) (by decide),
    (no_class_starves busyState _).2 1 ?_⟩
  intro e he _
  obtain rfl := List.mem_singleton.mp he
  exact ⟨⟨_, rfl⟩, 2, by decide, by decide, by decide⟩

end MyServer.Scheduler
