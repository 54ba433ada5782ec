import MyServer.Server.Pool

/-!
# What `freeThreads` counts

Each worker that waits is counted, less one for each iteration that has thrown
after it had lowered the counter.
-/

namespace MyServer.Server

abbrev Log := List (Run.Entry Pool Step Outcome)

def Pool.number (s : Pool) (p : Phase) : Nat := s.threads.countP (·.phase = p)

/-- The running workers that are not inside an iteration. -/
def Pool.idle (s : Pool) : Nat := s.number .idle

/-- The workers that `increaseFreeThread` should have counted: the idle ones and those in their
last wait. -/
def Pool.waiting (s : Pool) : Nat := s.number .idle + s.number .retiring

def Log.threw (l : Log) : Nat := l.countP (·.outcome = .threw)

/-! ## The list of workers -/

variable {s : Pool}

theorem worker_eq {i : Nat} {p : Phase} {w : Worker} (h : s.worker i p = some w) :
    ∃ hi : i < s.threads.length, s.threads[i] = w ∧ w.phase = p := by
  unfold Pool.worker at h
  obtain ⟨hget, hphase⟩ := Option.filter_eq_some_iff.mp h
  obtain ⟨hi, hget⟩ := List.getElem?_eq_some_iff.mp hget
  exact ⟨hi, hget, by simpa using hphase⟩

theorem number_put {i : Nat} {p : Phase} {w : Worker} (hw : s.worker i p = some w) (w' : Worker)
    (q : Phase) :
    (s.put i w').number q + (if p = q then 1 else 0) =
      s.number q + (if w'.phase = q then 1 else 0) := by
  obtain ⟨hi, hget, hphase⟩ := worker_eq hw
  unfold Pool.put Pool.number
  dsimp only
  rw [List.countP_set hi, hget, hphase]
  have hle : (if p = q then 1 else 0) ≤ s.threads.countP (·.phase = q) := by
    split
    · rename_i hpq
      apply List.countP_pos_iff.mpr
      exact ⟨w, hget ▸ List.getElem_mem hi, by simp [hphase, hpq]⟩
    · apply Nat.zero_le
  simp only [decide_eq_true_eq]
  omega

theorem countP_restore {q : Phase} {ws ws' : List Worker} (h : restore ws = some ws') :
    ws'.countP (·.phase = q) = ws.countP (·.phase = q) ∧ ws'.length = ws.length := by
  induction ws generalizing ws' with
  | nil => exact absurd h (by simp [restore])
  | cons w ws ih =>
    unfold restore at h
    split at h
    · cases h
      simp [List.countP_cons]
    · obtain ⟨vs, hvs, rfl⟩ := Option.map_eq_some_iff.mp h
      obtain ⟨hcount, hlength⟩ := ih hvs
      simp [List.countP_cons, hcount, hlength]

theorem countP_purgeFrom {q : Phase} (hq : q ≠ .stopped) (threshold ticks : BitVec 64)
    (destroyed : Nat) (ws : List Worker) :
    (purgeFrom threshold ticks destroyed ws).countP (·.phase = q) = ws.countP (·.phase = q) := by
  induction ws generalizing destroyed with
  | nil => simp [purgeFrom]
  | cons w ws ih =>
    unfold purgeFrom
    split
    · rename_i hstopped
      rw [ih, List.countP_cons_of_neg (by simp [hstopped, hq.symm])]
    · split
      · rw [List.countP_cons, List.countP_cons, ih]
        split <;> rfl
      · split <;> rw [List.countP_cons, List.countP_cons, ih]

theorem length_purgeFrom_le (threshold ticks : BitVec 64) (destroyed : Nat) (ws : List Worker) :
    (purgeFrom threshold ticks destroyed ws).length ≤ ws.length := by
  induction ws generalizing destroyed with
  | nil => simp [purgeFrom]
  | cons w ws ih =>
    have hws := ih destroyed
    have hnext := ih (destroyed + 1)
    unfold purgeFrom
    split
    · exact Nat.le_succ_of_le hws
    · split
      · exact Nat.succ_le_succ hnext
      · split
        · exact Nat.succ_le_succ hnext
        · exact Nat.succ_le_succ hws

/-! ## One step -/

@[simp] theorem put_freeThreads (i : Nat) (w : Worker) :
    (s.put i w).freeThreads = s.freeThreads := rfl
@[simp] theorem increaseFreeThread_freeThreads :
    s.increaseFreeThread.freeThreads = s.freeThreads + 1 := rfl
@[simp] theorem decreaseFreeThread_freeThreads :
    s.decreaseFreeThread.freeThreads = s.freeThreads - 1 := rfl
@[simp] theorem increaseFreeThread_number (q : Phase) :
    s.increaseFreeThread.number q = s.number q := rfl
@[simp] theorem decreaseFreeThread_number (q : Phase) :
    s.decreaseFreeThread.number q = s.number q := rfl

/-- The two states have the same workers idle, the same number in their last wait and the same
counter. -/
def Same (s s' : Pool) : Prop :=
  s'.freeThreads = s.freeThreads ∧ ∀ q, q ≠ .starting → q ≠ .stopped → s'.number q = s.number q

theorem same_create (isStatic created : Bool) (timeout : BitVec 32) :
    Same s (s.create isStatic created timeout) := by
  unfold Pool.create
  split
  · refine ⟨rfl, ?_⟩
    intro q hstarting _
    simp [Pool.number, hstarting.symm]
  · exact ⟨rfl, fun _ _ _ => rfl⟩

theorem same_addThread (isStatic created : Bool) (timeout : BitVec 32) :
    Same s (s.addThread isStatic created timeout) := by
  unfold Pool.addThread
  dsimp only
  split
  · exact ⟨rfl, fun _ _ _ => rfl⟩
  · split
    · exact same_create (s := { s with purgeThreadsThreshold := 1 }) true created timeout
    · split
      · rename_i ws hws
        exact ⟨rfl, fun _ _ _ => (countP_restore hws).1⟩
      · exact same_create (s := { s with purgeThreadsThreshold := 1 }) false created timeout

theorem same_checkThreadsNumber (cfg : Config) (created : Bool) (timeout : BitVec 32) :
    Same s (s.checkThreadsNumber cfg created timeout) := by
  unfold Pool.checkThreadsNumber
  split
  · exact same_addThread false created timeout
  · exact ⟨rfl, fun _ _ _ => rfl⟩

/-- The counter has moved with the number of waiting workers. -/
def Follows (s s' : Pool) : Prop :=
  (s'.freeThreads = s.freeThreads ∧ s'.waiting = s.waiting) ∨
  (s'.freeThreads = s.freeThreads + 1 ∧ s'.waiting = s.waiting + 1) ∨
  (s'.freeThreads = s.freeThreads - 1 ∧ s.waiting = s'.waiting + 1)

theorem Same.follows {s s' : Pool} (h : Same s s') :
    s'.number .retiring ≤ s.number .retiring ∧ Follows s s' := by
  obtain ⟨hfree, hnumber⟩ := h
  have hretiring := hnumber .retiring (by simp) (by simp)
  have hidle := hnumber .idle (by simp) (by simp)
  refine ⟨hretiring.le, Or.inl ⟨hfree, ?_⟩⟩
  unfold Pool.waiting
  rw [hidle, hretiring]

theorem follows_increase {i : Nat} {p : Phase} {w w' : Worker} (hw : s.worker i p = some w)
    (hp : p ≠ .idle ∧ p ≠ .retiring) (hw' : w'.phase = .idle) :
    (s.put i w').increaseFreeThread.number .retiring ≤ s.number .retiring ∧
      Follows s (s.put i w').increaseFreeThread := by
  have hidle := number_put hw w' .idle
  have hretiring := number_put hw w' .retiring
  rw [if_neg hp.1, hw', if_pos rfl] at hidle
  rw [if_neg hp.2, hw', if_neg (by simp)] at hretiring
  refine ⟨hretiring.le, Or.inr (Or.inl ⟨rfl, ?_⟩)⟩
  simp only [Pool.waiting, increaseFreeThread_number]
  omega

theorem follows_decrease {i : Nat} {p : Phase} {w w' : Worker} (hw : s.worker i p = some w)
    (hp : p = .idle ∨ p = .retiring) (hw' : w'.phase ≠ .idle ∧ w'.phase ≠ .retiring) :
    (s.put i w').decreaseFreeThread.number .retiring ≤ s.number .retiring ∧
      Follows s (s.put i w').decreaseFreeThread := by
  have hidle := number_put hw w' .idle
  have hretiring := number_put hw w' .retiring
  rw [if_neg hw'.1] at hidle
  rw [if_neg hw'.2] at hretiring
  simp only [Follows, Pool.waiting, decreaseFreeThread_number]
  rcases hp with rfl | rfl
  · simp only [reduceCtorEq, if_false, if_true] at hidle hretiring
    exact ⟨hretiring.le, Or.inr (Or.inr ⟨rfl, by omega⟩)⟩
  · simp only [reduceCtorEq, if_false, if_true] at hidle hretiring
    exact ⟨by omega, Or.inr (Or.inr ⟨rfl, by omega⟩)⟩

/-- What a step does to the counter and to the workers that wait. -/
theorem step_cases {cfg : Config} {s s' : Pool} {i : Step} {o : Outcome}
    (h : step cfg s i = some (o, s')) :
    (o = .silent ∧ s'.number .retiring ≤ s.number .retiring ∧ Follows s s') ∨
    (o = .threw ∧ s'.freeThreads = s.freeThreads ∧ s'.number .retiring = s.number .retiring ∧
      s'.idle = s.idle + 1) ∨
    (o = .retired ∧ s'.freeThreads = s.freeThreads + 1 ∧
      s'.number .retiring = s.number .retiring + 1 ∧ s'.idle = s.idle) := by
  cases i with
  | addStatic created timeout =>
    obtain ⟨-, h⟩ := Option.ite_none_right_eq_some.mp h
    obtain ⟨rfl, rfl⟩ := Prod.mk.inj (Option.some.inj h)
    exact Or.inl ⟨rfl, Same.follows (same_addThread true created timeout)⟩
  | checkThreadsNumber created timeout =>
    obtain ⟨rfl, rfl⟩ := Prod.mk.inj (Option.some.inj h)
    exact Or.inl ⟨rfl, Same.follows (same_checkThreadsNumber cfg created timeout)⟩
  | purgeThreads ticks =>
    obtain ⟨rfl, rfl⟩ := Prod.mk.inj (Option.some.inj h)
    exact Or.inl ⟨rfl, Same.follows ⟨rfl, fun _ _ hq => countP_purgeFrom hq _ _ _ _⟩⟩
  | setReady ready =>
    obtain ⟨rfl, rfl⟩ := Prod.mk.inj (Option.some.inj h)
    exact Or.inl ⟨rfl, Same.follows ⟨rfl, fun _ _ _ => rfl⟩⟩
  | setRebooting rebooting =>
    obtain ⟨rfl, rfl⟩ := Prod.mk.inj (Option.some.inj h)
    exact Or.inl ⟨rfl, Same.follows ⟨rfl, fun _ _ _ => rfl⟩⟩
  | stopAll =>
    obtain ⟨rfl, rfl⟩ := Prod.mk.inj (Option.some.inj h)
    exact Or.inl ⟨rfl, Same.follows ⟨rfl, fun _ _ _ => List.countP_map⟩⟩
  | start i =>
    obtain ⟨w, hw, h⟩ := Option.bind_eq_some_iff.mp h
    obtain ⟨rfl, rfl⟩ := Prod.mk.inj (Option.some.inj h)
    exact Or.inl ⟨rfl, follows_increase hw (by simp) rfl⟩
  | enterLoop i =>
    obtain ⟨w, hw, h⟩ := Option.bind_eq_some_iff.mp h
    obtain ⟨-, h⟩ := Option.ite_none_right_eq_some.mp h
    obtain ⟨rfl, rfl⟩ := Prod.mk.inj (Option.some.inj h)
    refine Or.inl ⟨rfl, Same.follows ⟨rfl, ?_⟩⟩
    intro q _ _
    obtain ⟨-, -, hphase⟩ := worker_eq hw
    apply Nat.add_right_cancel (m := if .idle = q then 1 else 0)
    exact (number_put hw { w with inLoop := true } q).trans (by simp only [hphase])
  | getConnectionThrows i =>
    obtain ⟨w, -, h⟩ := Option.bind_eq_some_iff.mp h
    obtain ⟨-, h⟩ := Option.ite_none_right_eq_some.mp h
    obtain ⟨rfl, rfl⟩ := Prod.mk.inj (Option.some.inj h)
    exact Or.inl ⟨rfl, Same.follows ⟨rfl, fun _ _ _ => rfl⟩⟩
  | getConnection i =>
    obtain ⟨w, hw, h⟩ := Option.bind_eq_some_iff.mp h
    obtain ⟨-, h⟩ := Option.ite_none_right_eq_some.mp h
    obtain ⟨rfl, rfl⟩ := Prod.mk.inj (Option.some.inj h)
    exact Or.inl ⟨rfl, follows_decrease hw (Or.inl rfl) (by simp)⟩
  | returns i noConnection ticks =>
    obtain ⟨w, hw, h⟩ := Option.bind_eq_some_iff.mp h
    obtain ⟨rfl, rfl⟩ := Prod.mk.inj (Option.some.inj h)
    by_cases hgone : ¬ w.isStatic ∧ w.toDestroy
    · have hphase : (w.returned noConnection ticks).phase = .retiring := if_pos hgone
      have hidle := number_put hw (w.returned noConnection ticks) .idle
      have hretiring := number_put hw (w.returned noConnection ticks) .retiring
      simp only [hphase, reduceCtorEq, if_false, if_true, Nat.add_zero] at hidle hretiring
      exact Or.inr (Or.inr ⟨if_pos hgone, rfl, hretiring, hidle⟩)
    · exact Or.inl ⟨if_neg hgone, follows_increase hw (by simp) (if_neg hgone)⟩
  | throws i =>
    obtain ⟨w, hw, h⟩ := Option.bind_eq_some_iff.mp h
    obtain ⟨rfl, rfl⟩ := Prod.mk.inj (Option.some.inj h)
    have hidle := number_put hw { w with phase := .idle } .idle
    have hretiring := number_put hw { w with phase := .idle } .retiring
    simp only [reduceCtorEq, if_false, if_true, Nat.add_zero] at hidle hretiring
    exact Or.inr (Or.inl ⟨rfl, rfl, hretiring, hidle⟩)
  | leave i =>
    obtain ⟨w, hw, h⟩ := Option.bind_eq_some_iff.mp h
    obtain ⟨-, h⟩ := Option.ite_none_right_eq_some.mp h
    obtain ⟨rfl, rfl⟩ := Prod.mk.inj (Option.some.inj h)
    exact Or.inl ⟨rfl, follows_decrease hw (Or.inl rfl) (by simp)⟩
  | wake i =>
    obtain ⟨w, hw, h⟩ := Option.bind_eq_some_iff.mp h
    obtain ⟨rfl, rfl⟩ := Prod.mk.inj (Option.some.inj h)
    exact Or.inl ⟨rfl, follows_decrease hw (Or.inr rfl) (by simp)⟩

theorem length_create (isStatic created : Bool) (timeout : BitVec 32)
    (hs : s.threads.length < 2 ^ 64) : (s.create isStatic created timeout).threads.length < 2 ^ 64 := by
  unfold Pool.create
  split
  · rename_i hroom
    rw [List.length_append]
    exact hroom.2
  · exact hs

theorem length_addThread (isStatic created : Bool) (timeout : BitVec 32)
    (hs : s.threads.length < 2 ^ 64) :
    (s.addThread isStatic created timeout).threads.length < 2 ^ 64 := by
  unfold Pool.addThread
  dsimp only
  split
  · exact hs
  · split
    · apply length_create
      exact hs
    · split
      · rename_i ws hws
        exact (countP_restore (q := .idle) hws).2 ▸ hs
      · apply length_create
        exact hs

theorem length_put (i : Nat) (w : Worker) : (s.put i w).threads.length = s.threads.length :=
  List.length_set

/-- There are never more workers than a machine word can count. -/
theorem length_step {cfg : Config} {s s' : Pool} {i : Step} {o : Outcome}
    (hs : s.threads.length < 2 ^ 64) (h : step cfg s i = some (o, s')) :
    s'.threads.length < 2 ^ 64 := by
  have hput : ∀ i w, (s.put i w).threads.length < 2 ^ 64 := fun i w => (length_put i w).trans_lt hs
  cases i with
  | addStatic created timeout =>
    obtain ⟨-, h⟩ := Option.ite_none_right_eq_some.mp h
    obtain ⟨rfl, rfl⟩ := Prod.mk.inj (Option.some.inj h)
    exact length_addThread true created timeout hs
  | checkThreadsNumber created timeout =>
    obtain ⟨rfl, rfl⟩ := Prod.mk.inj (Option.some.inj h)
    unfold Pool.checkThreadsNumber
    split
    · exact length_addThread false created timeout hs
    · exact hs
  | purgeThreads ticks =>
    obtain ⟨rfl, rfl⟩ := Prod.mk.inj (Option.some.inj h)
    exact (length_purgeFrom_le _ _ _ _).trans_lt hs
  | stopAll =>
    obtain ⟨rfl, rfl⟩ := Prod.mk.inj (Option.some.inj h)
    exact (List.length_map _).trans_lt hs
  | setReady | setRebooting =>
    obtain ⟨rfl, rfl⟩ := Prod.mk.inj (Option.some.inj h)
    exact hs
  | getConnectionThrows i =>
    obtain ⟨w, -, h⟩ := Option.bind_eq_some_iff.mp h
    obtain ⟨-, h⟩ := Option.ite_none_right_eq_some.mp h
    obtain ⟨rfl, rfl⟩ := Prod.mk.inj (Option.some.inj h)
    exact hs
  | start i | returns i | throws i | wake i =>
    obtain ⟨w, -, h⟩ := Option.bind_eq_some_iff.mp h
    obtain ⟨rfl, rfl⟩ := Prod.mk.inj (Option.some.inj h)
    exact hput i _
  | enterLoop i | getConnection i | leave i =>
    obtain ⟨w, -, h⟩ := Option.bind_eq_some_iff.mp h
    obtain ⟨-, h⟩ := Option.ite_none_right_eq_some.mp h
    obtain ⟨rfl, rfl⟩ := Prod.mk.inj (Option.some.inj h)
    exact hput i _

/-- `controlConnections` throws after its `decreaseFreeThread`. -/
def Step.Throws : Step → Prop
  | .throws _ => True
  | _ => False

/-- The iteration of a worker that is to be destroyed ends in the last wait. -/
def Pool.Retires (s : Pool) : Step → Prop
  | .returns i _ _ => ∃ w, s.worker i .serving = some w ∧ ¬ w.isStatic ∧ w.toDestroy
  | _ => False

theorem outcome_iff {cfg : Config} {s s' : Pool} {i : Step} {o : Outcome}
    (h : step cfg s i = some (o, s')) : (o = .threw ↔ i.Throws) ∧ (o = .retired ↔ s.Retires i) := by
  have hreturned : ∀ w : Worker, w.outcome ≠ .threw ∧
      (w.outcome = .retired ↔ ¬ w.isStatic ∧ w.toDestroy) := by
    intro w
    unfold Worker.outcome
    split <;> simp_all
  unfold step at h
  unfold Step.Throws Pool.Retires
  -- only an iteration that returns has an outcome that depends on the worker
  cases i <;> simp only [Option.bind_eq_bind, Option.bind_eq_some_iff] at h ⊢ <;> grind

/-! ## Runs -/

theorem waiting_le (s : Pool) : s.waiting ≤ s.threads.length := by
  unfold Pool.waiting Pool.number
  induction s.threads with
  | nil => simp
  | cons w ws ih =>
    simp only [List.countP_cons, List.length_cons]
    cases w.phase <;> simp <;> omega

theorem ofNat_succ (n : Nat) : BitVec.ofNat 64 (n + 1) = BitVec.ofNat 64 n + 1 :=
  BitVec.ofNat_add n 1

section Run

variable (cfg : Config) (is : List Step)

/-- **The drift.** What `freeThreads` falls short of the waiting workers by is the number of
iterations that have thrown. -/
theorem freeThreads_drift :
    (Run.last (step cfg) is Pool.init).freeThreads +
        BitVec.ofNat 64 (Log.threw (Run.run (step cfg) is Pool.init)) =
      BitVec.ofNat 64 (Run.last (step cfg) is Pool.init).waiting := by
  refine @Run.run_history _ _ _ (step cfg)
    (fun l s => s.freeThreads + BitVec.ofNat 64 (Log.threw l) = BitVec.ofNat 64 s.waiting) ?_ _ ?_ is
  · intro l s i o s' hl hstep
    have hthrew : Log.threw (l ++ [⟨s, i, o⟩]) = Log.threw l + if o = .threw then 1 else 0 := by
      simp [Log.threw, List.countP_append, List.countP_singleton]
    rcases step_cases hstep with
      ⟨rfl, -, hfollows⟩ | ⟨rfl, hfree, hretiring, hidle⟩ | ⟨rfl, hfree, hretiring, hidle⟩
    · rw [hthrew, if_neg (by simp), Nat.add_zero]
      rcases hfollows with ⟨hfree, hwaiting⟩ | ⟨hfree, hwaiting⟩ | ⟨hfree, hwaiting⟩
      · rw [hfree, hwaiting, hl]
      · rw [hfree, hwaiting, ofNat_succ, ← hl]
        ac_rfl
      · rw [hwaiting, ofNat_succ] at hl
        rw [hfree]
        bv_omega
    · have hwaiting : s'.waiting = s.waiting + 1 := by
        unfold Pool.waiting Pool.idle at *
        omega
      rw [hthrew, if_pos rfl, hfree, hwaiting, ofNat_succ, ofNat_succ, ← hl]
      ac_rfl
    · have hwaiting : s'.waiting = s.waiting + 1 := by
        unfold Pool.waiting Pool.idle at *
        omega
      rw [hthrew, if_neg (by simp), Nat.add_zero, hfree, hwaiting, ofNat_succ, ← hl]
      ac_rfl
  · rfl

theorem waiting_lt : (Run.last (step cfg) is Pool.init).waiting < 2 ^ 64 := by
  apply (waiting_le _).trans_lt
  exact @Run.last_invariant _ _ _ (step cfg) (fun s => s.threads.length < 2 ^ 64)
    (fun _ _ _ _ hs h => length_step hs h) _ (by simp [Pool.init]) is

/-- No worker is in its last wait as long as none has retired. -/
theorem retiring_eq_zero (h : ∀ e ∈ Run.run (step cfg) is Pool.init, e.outcome ≠ .retired) :
    (Run.last (step cfg) is Pool.init).number .retiring = 0 := by
  refine @Run.run_history _ _ _ (step cfg)
    (fun l s => (∀ e ∈ l, e.outcome ≠ .retired) → s.number .retiring = 0) ?_ _ ?_ is h
  · intro l s i o s' hl hstep hnone
    have hzero := hl (fun e he => hnone e (List.mem_append_left _ he))
    have hlast := hnone ⟨s, i, o⟩ (by simp)
    rcases step_cases hstep with ⟨-, hretiring, -⟩ | ⟨-, -, hretiring, -⟩ | ⟨rfl, -⟩
    · omega
    · omega
    · exact absurd rfl hlast
  · intro _
    rfl

theorem freeThreads_eq_waiting (h : ∀ e ∈ Run.run (step cfg) is Pool.init, e.outcome ≠ .threw) :
    (Run.last (step cfg) is Pool.init).freeThreads.toNat =
      (Run.last (step cfg) is Pool.init).waiting := by
  have hdrift := freeThreads_drift cfg is
  have hnone : Log.threw (Run.run (step cfg) is Pool.init) = 0 := by
    apply List.countP_eq_zero.mpr
    intro e he
    simpa using h e he
  rw [hnone, BitVec.add_zero] at hdrift
  rw [hdrift, BitVec.toNat_ofNat, Nat.mod_eq_of_lt (waiting_lt cfg is)]

/-- **Free-thread accounting.** In the states of a run `freeThreads` is the number of workers that
are not inside an iteration exactly if no iteration threw after the decrease and none ended in the
last wait; with the last wait counted as free it is exactly if none threw. -/
theorem freeThreads_exact_iff :
    ((∀ n, (Run.last (step cfg) (is.take n) Pool.init).freeThreads.toNat =
        (Run.last (step cfg) (is.take n) Pool.init).idle) ↔
      ∀ e ∈ Run.run (step cfg) is Pool.init, ¬ e.input.Throws ∧ ¬ e.before.Retires e.input) ∧
    ((∀ n, (Run.last (step cfg) (is.take n) Pool.init).freeThreads.toNat =
        (Run.last (step cfg) (is.take n) Pool.init).waiting) ↔
      ∀ e ∈ Run.run (step cfg) is Pool.init, ¬ e.input.Throws) := by
  have houtcome : ∀ e ∈ Run.run (step cfg) is Pool.init,
      (e.outcome = .threw ↔ e.input.Throws) ∧ (e.outcome = .retired ↔ e.before.Retires e.input) := by
    intro e he
    obtain ⟨n, -, hstep⟩ := Run.exists_take_of_mem_run he
    exact outcome_iff hstep
  refine ⟨⟨?_, ?_⟩, ⟨?_, ?_⟩⟩
  · intro h e he
    rw [← (houtcome e he).1, ← (houtcome e he).2]
    obtain ⟨n, hbefore, hstep⟩ := Run.exists_take_of_mem_run he
    have hn := h n
    have hnext := h (n + 1)
    rw [hbefore] at hn
    rcases step_cases hstep with ⟨ho, -⟩ | ⟨-, hfree, -, hidle⟩ | ⟨-, hfree, -, hidle⟩
    · simp [ho]
    · rw [hfree, hidle] at hnext
      omega
    · rw [hfree, hidle] at hnext
      bv_omega
  · intro h n
    have hnot : ∀ e ∈ Run.run (step cfg) (is.take n) Pool.init,
        e.outcome ≠ .threw ∧ e.outcome ≠ .retired := by
      intro e he
      have hmem := Run.mem_run_of_mem_take he
      rw [Ne, Ne, (houtcome e hmem).1, (houtcome e hmem).2]
      exact h e hmem
    rw [freeThreads_eq_waiting cfg (is.take n) (fun e he => (hnot e he).1)]
    unfold Pool.waiting Pool.idle
    rw [retiring_eq_zero cfg (is.take n) (fun e he => (hnot e he).2), Nat.add_zero]
  · intro h e he
    rw [← (houtcome e he).1]
    obtain ⟨n, hbefore, hstep⟩ := Run.exists_take_of_mem_run he
    have hn := h n
    have hnext := h (n + 1)
    rw [hbefore] at hn
    rcases step_cases hstep with ⟨ho, -⟩ | ⟨-, hfree, hretiring, hidle⟩ | ⟨ho, -⟩
    · simp [ho]
    · unfold Pool.waiting at hn hnext
      unfold Pool.idle at hidle
      rw [hfree, hretiring, hidle] at hnext
      omega
    · simp [ho]
  · intro h n
    apply freeThreads_eq_waiting
    intro e he
    have hmem := Run.mem_run_of_mem_take he
    rw [Ne, (houtcome e hmem).1]
    exact h e hmem

end Run

/-- One static worker takes a connection, and `controlConnections` throws. -/
def oneThrow : List Step :=
  [.addStatic true 0, .start 0, .setReady true, .enterLoop 0, .getConnection 0, .throws 0]

theorem freeThreads_below_idle :
    (Run.last (step ⟨1, 1⟩) oneThrow Pool.init).freeThreads = 0 ∧
      (Run.last (step ⟨1, 1⟩) oneThrow Pool.init).idle = 1 := by
  decide

end MyServer.Server
