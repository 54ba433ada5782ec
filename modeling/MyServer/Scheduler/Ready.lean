import MyServer.Lib.Run

/-!
# The ready queues of the connections scheduler

`addReadyConnectionImpl` and `getConnection`, each cut into what runs under
`readyMutex` and what it does to `readySemaphore`. The steps of any number of
threads are interleaved.
-/

namespace MyServer.Scheduler

/-- `PRIORITY_CLASSES` -/
def priorityClasses : Nat := 3

/-- What the scheduler reads of a connection. `hostPriority` is the default of its host. -/
structure Connection where
  id : Nat
  priority : Int
  hostPriority : Option Int
deriving DecidableEq

def Connection.readyClass (c : Connection) : Nat :=
  let priority := if c.priority = -1 then c.hostPriority.getD c.priority else c.priority
  (min (priorityClasses - 1 : Int) (max 0 priority)).toNat

theorem Connection.readyClass_lt (c : Connection) : c.readyClass < priorityClasses := by
  unfold Connection.readyClass priorityClasses
  dsimp only
  omega

structure ReadyQueues where
  ready : Nat → List Connection
  currentPriority : Nat
  currentPriorityDone : Nat
  current_lt : currentPriority < priorityClasses

namespace ReadyQueues

def push (q : ReadyQueues) (c : Connection) : ReadyQueues :=
  { q with ready := Function.update q.ready c.readyClass (q.ready c.readyClass ++ [c]) }

/-- The current class was served more often than its number, or has no connection. -/
def TurnOver (q : ReadyQueues) : Prop :=
  q.currentPriority < q.currentPriorityDone ∨ q.ready q.currentPriority = []

instance (q : ReadyQueues) : Decidable q.TurnOver := inferInstanceAs (Decidable (_ ∨ _))

def nextClass (q : ReadyQueues) : ReadyQueues :=
  { q with
    currentPriority := (q.currentPriority + 1) % priorityClasses
    currentPriorityDone := 0
    current_lt := Nat.mod_lt _ (by decide) }

def served (q : ReadyQueues) (rest : List Connection) : ReadyQueues :=
  { q with
    ready := Function.update q.ready q.currentPriority rest
    currentPriorityDone := q.currentPriorityDone + 1 }

/-- `i` rounds of the loop. A connection is returned with the queue that it was the front of. -/
def search : Nat → ReadyQueues → Option (Nat × Connection) × ReadyQueues
  | 0, q => (none, q)
  | i + 1, q =>
    let q := if q.TurnOver then q.nextClass else q
    match q.ready q.currentPriority with
    | [] => search i q
    | c :: rest => (some (q.currentPriority, c), q.served rest)

def getConnection (q : ReadyQueues) : Option (Nat × Connection) × ReadyQueues :=
  search priorityClasses q

end ReadyQueues

/-- `unannounced` connections are in a queue but `addReadyConnectionImpl` has not unlocked the
semaphore yet; `inside` calls of `getConnection` have the semaphore but not been at the queues. -/
structure State where
  queues : ReadyQueues
  unannounced : Nat
  readySemaphore : Nat
  inside : Nat

/-- `wake` is the listener's timeout, which unlocks the semaphore too. -/
inductive Step
  | push (c : Connection)
  | unlock
  | wake
  | lock
  | get

inductive Outcome
  | pushed (p : Nat) (c : Connection)
  | returned (r : Option (Nat × Connection))
  | silent
deriving DecidableEq

def step (s : State) : Step → Option (Outcome × State)
  | .push c => some (.pushed c.readyClass c,
      { s with queues := s.queues.push c, unannounced := s.unannounced + 1 })
  | .unlock =>
    if 0 < s.unannounced then
      some (.silent, { s with
        unannounced := s.unannounced - 1, readySemaphore := s.readySemaphore + 1 })
    else none
  | .wake => some (.silent, { s with readySemaphore := s.readySemaphore + 1 })
  | .lock =>
    if 0 < s.readySemaphore then
      some (.silent, { s with readySemaphore := s.readySemaphore - 1, inside := s.inside + 1 })
    else none
  | .get =>
    if 0 < s.inside then
      some (.returned s.queues.getConnection.1,
        { s with queues := s.queues.getConnection.2, inside := s.inside - 1 })
    else none

abbrev Log := List (Run.Entry State Step Outcome)

def Outcome.pushedIn (p : Nat) : Outcome → Option Connection
  | .pushed p' c => if p' = p then some c else none
  | _ => none

def Outcome.handedFrom (p : Nat) : Outcome → Option Connection
  | .returned (some (p', c)) => if p' = p then some c else none
  | _ => none

def Outcome.isReturn : Outcome → Bool
  | .returned _ => true
  | _ => false

/-- The connections put in the queue of class `p`, in order. -/
def Log.pushed (l : Log) (p : Nat) : List Connection := l.filterMap (·.outcome.pushedIn p)

/-- The connections handed out from the queue of class `p`, in order. -/
def Log.handed (l : Log) (p : Nat) : List Connection := l.filterMap (·.outcome.handedFrom p)

/-- How many calls of `getConnection` have returned. -/
def Log.calls (l : Log) : Nat := l.countP (·.outcome.isReturn)

/-! ## What one search does -/

namespace ReadyQueues

def turn (q : ReadyQueues) (k : Nat) : ReadyQueues := nextClass^[k] q

@[simp] theorem push_current (q : ReadyQueues) (c : Connection) :
    (q.push c).currentPriority = q.currentPriority := rfl

@[simp] theorem push_done (q : ReadyQueues) (c : Connection) :
    (q.push c).currentPriorityDone = q.currentPriorityDone := rfl

@[simp] theorem turn_zero (q : ReadyQueues) : q.turn 0 = q := rfl

theorem turn_succ (q : ReadyQueues) (k : Nat) : q.turn (k + 1) = q.nextClass.turn k := rfl

@[simp] theorem turn_ready (q : ReadyQueues) (k : Nat) : (q.turn k).ready = q.ready := by
  induction k generalizing q with
  | zero => rfl
  | succ k ih => exact ih q.nextClass

theorem turn_current (q : ReadyQueues) (k : Nat) :
    (q.turn k).currentPriority = (q.currentPriority + k) % priorityClasses := by
  induction k generalizing q with
  | zero => exact (Nat.mod_eq_of_lt q.current_lt).symm
  | succ k ih =>
    rw [turn_succ, ih]
    unfold nextClass
    rw [Nat.mod_add_mod]
    congr 1
    omega

theorem turn_done (q : ReadyQueues) {k : Nat} (hk : 0 < k) : (q.turn k).currentPriorityDone = 0 := by
  obtain ⟨k, rfl⟩ : ∃ j, k = j + 1 := ⟨k - 1, by omega⟩
  clear hk
  induction k generalizing q with
  | zero => rfl
  | succ k ih => exact ih q.nextClass

/-- The search stops at the first class, from `k` turns on, that has a connection. -/
structure Finds (q : ReadyQueues) (k : Nat) (p : Nat) (c : Connection) (q' : ReadyQueues) :
    Prop where
  current : p = (q.currentPriority + k) % priorityClasses
  stays : k = 0 → ¬ q.TurnOver
  moves : 0 < k → q.TurnOver
  passed : ∀ j, 0 < j → j < k → q.ready ((q.currentPriority + j) % priorityClasses) = []
  front : ∃ rest, q.ready p = c :: rest ∧ q' = (q.turn k).served rest

theorem search_of_empty {i : Nat} {q : ReadyQueues} (hover : q.TurnOver)
    (hempty : ∀ j, 0 < j → j ≤ i → q.ready ((q.currentPriority + j) % priorityClasses) = []) :
    search i q = (none, q.turn i) := by
  induction i generalizing q with
  | zero => rfl
  | succ i ih =>
    have hnext : q.ready q.nextClass.currentPriority = [] := hempty 1 (by omega) (by omega)
    unfold search
    rw [if_pos hover]
    dsimp only
    rw [show q.nextClass.ready = q.ready from rfl, hnext, turn_succ]
    apply ih (Or.inr hnext)
    intro j hj hji
    have h := hempty (j + 1) (by omega) (by omega)
    unfold nextClass
    dsimp only
    rwa [Nat.mod_add_mod, Nat.add_assoc, Nat.add_comm 1 j]

theorem search_of_found {i k : Nat} {q : ReadyQueues} (hk : 0 < k) (hki : k ≤ i)
    (hover : q.TurnOver)
    (hempty : ∀ j, 0 < j → j < k → q.ready ((q.currentPriority + j) % priorityClasses) = [])
    {c : Connection} {rest : List Connection}
    (hfront : q.ready ((q.currentPriority + k) % priorityClasses) = c :: rest) :
    search i q =
      (some ((q.currentPriority + k) % priorityClasses, c), (q.turn k).served rest) := by
  induction k generalizing q i with
  | zero => omega
  | succ k ih =>
    obtain ⟨i, rfl⟩ : ∃ i', i = i' + 1 := ⟨i - 1, by omega⟩
    unfold search
    rw [if_pos hover]
    dsimp only
    rw [show q.nextClass.ready = q.ready from rfl]
    by_cases hk0 : k = 0
    · subst hk0
      rw [show q.ready q.nextClass.currentPriority = c :: rest from hfront]
      rfl
    · have hnext : q.ready q.nextClass.currentPriority = [] := hempty 1 (by omega) (by omega)
      have hcurrent : ∀ j, (q.nextClass.currentPriority + j) % priorityClasses =
          (q.currentPriority + (j + 1)) % priorityClasses := by
        intro j
        unfold nextClass
        dsimp only
        rw [Nat.mod_add_mod, Nat.add_assoc, Nat.add_comm 1 j]
      rw [hnext]
      dsimp only
      rw [ih (by omega) (by omega) (Or.inr hnext)]
      · rw [hcurrent, turn_succ]
      · intro j hj hjk
        rw [hcurrent]
        exact hempty (j + 1) (by omega) (by omega)
      · rw [hcurrent]
        exact hfront

/-- **One call**: nothing is returned only from empty queues, and otherwise the search finds. -/
theorem getConnection_cases (q : ReadyQueues) :
    (q.getConnection = (none, q.turn priorityClasses) ∧ ∀ p < priorityClasses, q.ready p = []) ∨
      ∃ k p c q', q.getConnection = (some (p, c), q') ∧ k ≤ priorityClasses ∧
        q.Finds k p c q' := by
  have hlt := q.current_lt
  by_cases hover : q.TurnOver
  · by_cases hall : ∀ j, 0 < j → j ≤ priorityClasses →
      q.ready ((q.currentPriority + j) % priorityClasses) = []
    · refine Or.inl ⟨search_of_empty hover hall, fun p hp => ?_⟩
      -- The class `p` is met within one circle.
      have h := hall (p + (priorityClasses - q.currentPriority)) (by omega)
      by_cases hle : q.currentPriority < p
      · have h := hall (p - q.currentPriority) (by omega) (by omega)
        rwa [Nat.add_sub_cancel' hle.le, Nat.mod_eq_of_lt hp] at h
      · have h := h (by omega)
        rwa [show q.currentPriority + (p + (priorityClasses - q.currentPriority)) =
          p + priorityClasses by omega, Nat.add_mod_right, Nat.mod_eq_of_lt hp] at h
    · right
      push Not at hall
      classical
      set k := Nat.find hall with hk
      obtain ⟨hpos, hle, hne⟩ := Nat.find_spec hall
      obtain ⟨c, rest, hfront⟩ := List.exists_cons_of_ne_nil hne
      have hmin : ∀ j, 0 < j → j < k →
          q.ready ((q.currentPriority + j) % priorityClasses) = [] := by
        intro j hj hjk
        by_contra hne'
        exact Nat.find_min hall hjk ⟨hj, by omega, hne'⟩
      refine ⟨k, _, c, _, search_of_found hpos hle hover hmin hfront, hle, ?_⟩
      exact ⟨rfl, fun h0 => by omega, fun _ => hover, hmin, rest, hfront, rfl⟩
  · right
    have hne : q.ready q.currentPriority ≠ [] := fun h => hover (Or.inr h)
    obtain ⟨c, rest, hfront⟩ := List.exists_cons_of_ne_nil hne
    refine ⟨0, q.currentPriority, c, q.served rest, ?_, Nat.zero_le _,
      (Nat.mod_eq_of_lt hlt).symm, fun _ => hover, fun h => absurd h (lt_irrefl 0),
      fun j hj hj0 => absurd hj0 (Nat.not_lt_zero j), rest, hfront, rfl⟩
    unfold getConnection
    rw [show priorityClasses = 2 + 1 from rfl, search, if_neg hover, hfront]

theorem Finds.ready {q q' : ReadyQueues} {k p : Nat} {c : Connection} (h : q.Finds k p c q') :
    ∃ rest, q.ready p = c :: rest ∧ q'.ready = Function.update q.ready p rest := by
  obtain ⟨rest, hfront, rfl⟩ := h.front
  refine ⟨rest, hfront, ?_⟩
  change Function.update (q.turn k).ready (q.turn k).currentPriority rest = _
  rw [turn_ready, turn_current, h.current]

end ReadyQueues

end MyServer.Scheduler
