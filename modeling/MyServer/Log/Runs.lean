import MyServer.Log.Consistent

/-!
# Runs of the log manager

A run whose destructors do not throw keeps the tables consistent. A reachable
manager is `Sound` in any case.
-/

open Std

namespace MyServer.Log

namespace LogManager

/-! ## No deleted stream is used -/

/-- The streams of the triples are live. -/
def Alive (m : LogManager) : Prop := ∀ tr ls, m.find tr = some ls → ls ∈ m.live

theorem Agree.toAlive {m : LogManager} (hm : m.Agree) : m.Alive :=
  fun tr ls h => hm.alive _ ls (hm.shared tr ls h)

theorem Alive.of_same {m m' : LogManager} (h : SameTables m m') (hm : m.Alive) : m'.Alive := by
  intro tr ls hls
  rw [h.live]
  exact hm tr ls (by rwa [← h.find])

theorem fst_contains (m : LogManager) (tr : Triple) :
    (m.contains tr).1 = decide (m.Registered tr ∧ tr.owner ∈ m.ownersOf tr.location) := by
  unfold contains Registered
  simp only [find_touchType, ownersOf_touchType]
  split
  next h => exact decide_eq_decide.mpr (by simp only [h, true_and])
  next h => simp only [h, false_and, decide_false, Bool.false_eq_true]

/-- What holds before every call and is kept by every call, with no call undefined. -/
theorem each_defined {κ : Type} {P : LogManager → Prop} {call : LogManager → κ → Result}
    (hcall : ∀ m k, P m → (call m k).ending ≠ .undefined ∧ P (call m k).manager) (ks : List κ)
    (failure : Bool) {m : LogManager} (hm : P m) : (each call ks failure m).ending ≠ .undefined := by
  induction ks generalizing failure m with
  | nil => simp [each]
  | cons k ks ih =>
    obtain ⟨hend, hnext⟩ := hcall m k hm
    unfold each
    dsimp only
    split
    · exact ih _ hnext
    · exact hend

theorem caught_defined {r : Result} (failure : Bool) (h : r.ending ≠ .undefined) :
    (r.caught failure).ending ≠ .undefined := by
  unfold Result.caught
  split
  · simp
  · exact h

section Defined

variable {m : LogManager}

theorem notifyLocation_defined (hm : m.Alive) (evt : LogStreamEvent) (answer : Triple → Answer)
    (tr : Triple) : (m.notifyLocation evt answer tr).ending ≠ .undefined := by
  have hfst := fst_contains m tr
  have hsame := same_contains m tr
  unfold notifyLocation
  dsimp only
  split
  next hfound =>
    rw [hfst, decide_eq_true_iff] at hfound
    obtain ⟨ls, hls⟩ := Option.isSome_iff_exists.mp hfound.1
    unfold update
    rw [hsame.find, hls, hsame.live]
    dsimp only
    rw [if_pos (hm tr ls hls)]
    split <;> simp
  next => simp

theorem notifyType_defined (hm : m.Alive) (evt : LogStreamEvent) (answer : Triple → Answer) (o : Owner)
    (t : Str) : (notifyType o evt answer m t).ending ≠ .undefined := by
  unfold notifyType containsType
  dsimp only
  split
  · apply each_defined _ _ _ (hm.of_same (same_touchOwner m o))
    intro m l hm
    exact ⟨notifyLocation_defined hm evt answer _, hm.of_same (same_notifyLocation m evt answer _)⟩
  · simp

theorem notifyOwner_defined (hm : m.Alive) (evt : LogStreamEvent) (answer : Triple → Answer)
    (o : Owner) : (m.notifyOwner o evt answer).ending ≠ .undefined := by
  unfold notifyOwner
  split
  · apply each_defined _ _ _ hm
    intro m t hm
    exact ⟨notifyType_defined hm evt answer o t, hm.of_same (same_notifyType m evt answer o t)⟩
  · simp

theorem notify_defined (hm : m.Alive) (evt : LogStreamEvent) (answer : Triple → Answer)
    (target : Target) : (m.notify evt answer target).ending ≠ .undefined := by
  cases target with
  | owner o => exact notifyOwner_defined hm evt answer o
  | type o t => exact notifyType_defined hm evt answer o t
  | location tr => exact notifyLocation_defined hm evt answer tr

theorem logFormat_defined (hm : m.Alive) (o : Owner) (t : Str) (level : LoggingLevel) (stamp : Str)
    (appendNL : Bool) (fmt : Str) (args : List Str) (answer : Triple → Answer) :
    (m.logFormat o t level stamp appendNL fmt args answer).ending ≠ .undefined := by
  unfold logFormat
  split
  · simp
  · split
    · simp
    · exact caught_defined _ (notify_defined hm _ _ _)

theorem send_defined (hm : m.Alive) (answer : Triple → Answer) (msg : Message) :
    (m.send answer msg).ending ≠ .undefined := by
  cases msg with
  | log message appendNL level target =>
    change (m.log message appendNL level answer target).ending ≠ .undefined
    unfold log
    split
    · simp
    · exact caught_defined _ (notify_defined hm _ _ _)
  | logFormat o t level stamp appendNL fmt args => exact logFormat_defined hm _ _ _ _ _ _ _ _
  | close target => exact notify_defined hm _ _ _
  | setCycle cycle target => exact notify_defined hm _ _ _
  | chown uid gid target =>
    change (m.chown uid gid answer target).ending ≠ .undefined
    cases target with
    | owner o => exact notifyOwner_defined hm _ _ _
    | type o t => exact notifyOwner_defined hm _ _ _
    | location tr => exact notifyLocation_defined hm _ _ _

theorem warned_defined {tr : Triple} (env : Surroundings)
    (hm : (m.register tr (m.logStreams.index tr.location)).Alive) :
    (m.warned tr env).ending ≠ .undefined := by
  unfold warned
  dsimp only
  cases env.server with
  | none => simp
  | some server =>
    dsimp only
    split
    · exact logFormat_defined hm _ _ _ _ _ _ _ _
    · simp

theorem add_defined (hm : m.Agree) (tr : Triple) (env : Surroundings) :
    (m.add tr env).ending ≠ .undefined := by
  by_cases hl : m.Shared tr.location
  · rcases add_shared_cases env hl with ⟨m', heq, -⟩ | heq
    · simp [heq]
    · rw [heq]
      exact warned_defined env (hm.register_shared hl).toAlive
  · obtain ⟨failure, m', heq, -⟩ := add_new_cases hm.sound env hl
    simp [heq]

end Defined

/-! ## Every step -/

/-- The locations whose stream the operation deletes. -/
def Deletes (m : LogManager) : Op → Str → Prop
  | .remove o _, l => l ∈ m.locationsOf o ∧ ∀ o' ∈ m.ownersOf l, o' = o
  | .clear _, l => l ∈ m.logStreams
  | _, _ => False

theorem Agree.perform {m : LogManager} (hm : m.Agree) {op : Op}
    (hquiet : ∀ l, m.Deletes op l → op.raises l = false) :
    (perform m op).ending ≠ .undefined ∧ (perform m op).manager.Agree := by
  cases op with
  | add tr env => exact ⟨add_defined hm tr env, hm.add tr env⟩
  | remove o raises => exact hm.remove fun l hl hlast => hquiet l ⟨hl, hlast⟩
  | clear raises => exact hm.clear hquiet
  | setLevel level =>
    have hsame : SameTables m { m with level := level } :=
      ⟨rfl, fun _ => rfl, fun _ => rfl, rfl, rfl⟩
    exact ⟨by simp [MyServer.Log.perform], Agrees.of_same hsame hm⟩
  | ask q => exact ⟨by simp [MyServer.Log.perform], Agrees.of_same (same_ask m q) hm⟩
  | send answer msg =>
    exact ⟨send_defined hm.toAlive answer msg, Agrees.of_same (same_send m answer msg) hm⟩

theorem Sound.perform {m : LogManager} (hm : m.Sound) (op : Op) : (perform m op).manager.Sound := by
  cases op with
  | add tr env => exact hm.add tr env
  | remove o raises => exact hm.remove o raises
  | clear raises => exact hm.clear raises
  | setLevel level => exact ⟨hm.stream, hm.owner, hm.located⟩
  | ask q => exact Sound.of_same (same_ask m q) hm
  | send answer msg => exact Sound.of_same (same_send m answer msg) hm

end LogManager

/-- The managers that some run of operations leads to. -/
def Reachable (m : LogManager) : Prop :=
  ∃ (level : LoggingLevel) (ops : List Op), m = Run.last step ops (LogManager.init level)

theorem step_eq_some {m m' : LogManager} {op : Op} {e : Ending} (h : step m op = some (e, m')) :
    m' = (perform m op).manager := by
  unfold step at h
  dsimp only at h
  split at h
  · contradiction
  · cases h
    rfl

/-- **What every reachable manager has**, also after a destructor has thrown. -/
theorem Reachable.sound {m : LogManager} (hm : Reachable m) : m.Sound := by
  obtain ⟨level, ops, rfl⟩ := hm
  apply Run.last_invariant
  · intro m op e m' hm h
    rw [step_eq_some h]
    exact hm.perform op
  · exact (LogManager.agree_init level).sound

theorem agree_of_quiet {ops : List Op} {m : LogManager} (hm : m.Agree)
    (hquiet : ∀ n op, ops[n]? = some op → ∀ l, (Run.last step (ops.take n) m).Deletes op l →
      op.raises l = false) :
    (Run.run step ops m).length = ops.length ∧
      ∀ n, (Run.last step (ops.take n) m).Agree := by
  induction ops generalizing m with
  | nil => exact ⟨rfl, fun n => by rwa [List.take_nil]⟩
  | cons op ops ih =>
    obtain ⟨hend, hnext⟩ := hm.perform (hquiet 0 op rfl)
    have hstep : step m op = some ((perform m op).ending, (perform m op).manager) := by
      unfold step
      exact if_neg hend
    have hlast : ∀ n, Run.last step ((op :: ops).take (n + 1)) m =
        Run.last step (ops.take n) (perform m op).manager := by
      intro n
      rw [List.take_succ_cons, Run.last, hstep]
    obtain ⟨hlength, hagree⟩ := ih hnext (by
      intro n op' hop' l hl
      apply hquiet (n + 1) op' hop' l
      rwa [hlast])
    constructor
    · rw [Run.run, hstep]
      exact congrArg (· + 1) hlength
    · intro n
      cases n with
      | zero => exact hm
      | succ n =>
        rw [hlast]
        exact hagree n

/-- **The tables stay consistent** in every run in which no destructor of a deleted stream throws, and
no step of it uses a deleted stream. -/
theorem tables_consistent (level : LoggingLevel) (ops : List Op)
    (hquiet : ∀ n op, ops[n]? = some op → ∀ l,
      (Run.last step (ops.take n) (LogManager.init level)).Deletes op l → op.raises l = false) :
    (Run.run step ops (LogManager.init level)).length = ops.length ∧
      ∀ n, (Run.last step (ops.take n) (LogManager.init level)).Consistent := by
  obtain ⟨hlength, hagree⟩ := agree_of_quiet (LogManager.agree_init level) hquiet
  exact ⟨hlength, fun n => (hagree n).consistent⟩

/-! ## Fixed inputs -/

def plainSurroundings : Surroundings := ⟨true, true, none, fun _ => .returned false, [], []⟩

def fileTriple (owner : Owner) (type : String) : Triple := ⟨owner, ascii type, ascii "file://a"⟩

/-- Two owners share a stream, which goes with the second of them. -/
theorem tables_consistent_shared :
    (Run.run step
        [.add (fileTriple 1 "MAINLOG") plainSurroundings, .add (fileTriple 2 "ACCESS") plainSurroundings,
          .remove 1 (fun _ => false), .remove 2 (fun _ => false), .clear (fun _ => false)]
        (LogManager.init .info)).length = 5 ∧
      ∀ n, (Run.last step
        (([.add (fileTriple 1 "MAINLOG") plainSurroundings,
          .add (fileTriple 2 "ACCESS") plainSurroundings, .remove 1 (fun _ => false),
          .remove 2 (fun _ => false), .clear (fun _ => false)] : List Op).take n)
        (LogManager.init .info)).Consistent := by
  apply tables_consistent
  intro n op hop l _
  have hmem := List.mem_of_getElem? hop
  simp only [List.mem_cons, List.not_mem_nil, or_false] at hmem
  rcases hmem with rfl | rfl | rfl | rfl | rfl <;> rfl

/-- The stream's file cannot be closed, and the location stays in the table without an owner. -/
theorem not_tables_consistent :
    ¬ ∀ (level : LoggingLevel) (ops : List Op) (n : Nat),
      (Run.last step (ops.take n) (LogManager.init level)).Consistent := by
  intro h
  have hlocated := (h .info
    [.add (fileTriple 1 "MAINLOG") plainSurroundings, .remove 1 fun _ => true] 2).located (ascii "file://a")
  exact hlocated.mp (by decide) (by decide)

end MyServer.Log
