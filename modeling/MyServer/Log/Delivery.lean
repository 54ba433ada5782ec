import MyServer.Lib.Through
import MyServer.Log.Runs

/-!
# Which triples a message is delivered to

A message walks the triples of a target, in the order of the tables, until the
update of one of them throws. Only `chown` of a category walks another target
than the one it is given.
-/

open Std MyServer.Through

namespace MyServer.Log

def Target.Covers : Target → Triple → Prop
  | .owner o, tr => tr.owner = o
  | .type o t, tr => tr.owner = o ∧ tr.type = t
  | .location tr', tr => tr = tr'

def Message.target : Message → Target
  | .log _ _ _ target => target
  | .logFormat o t _ _ _ _ _ => .type o t
  | .close target => target
  | .setCycle _ target => target
  | .chown _ _ target => target

/-- The target that the code walks. -/
def Message.walks : Message → Target
  | .chown _ _ (.type o _) => .owner o
  | msg => msg.target

/-- A message below the level and one with a wrong format have no event. -/
def Message.event (m : LogManager) : Message → Option LogStreamEvent
  | .log message appendNL level _ =>
    if level.rank < m.level.rank then none
    else some (.log (if appendNL then message ++ LogManager.newline else message) level)
  | .logFormat _ _ level stamp appendNL fmt args =>
    if level.rank < m.level.rank then none
    else (LogManager.format fmt args).map fun text =>
      .log (if appendNL then stamp ++ text ++ LogManager.newline else stamp ++ text) level
  | .close _ => some .close
  | .setCycle cycle _ => some (.setCycle cycle)
  | .chown uid gid _ => some (.chown uid gid)

namespace LogManager

variable {m : LogManager}

/-- The registered triples of a target, in the order of the tables. -/
def walk (m : LogManager) : Target → List Triple
  | .owner o =>
    (m.owners.index o).keys.flatMap fun t =>
      ((m.owners.index o).index t).keys.map fun l => ⟨o, t, l⟩
  | .type o t => ((m.owners.index o).index t).keys.map fun l => ⟨o, t, l⟩
  | .location tr => if m.Registered tr then [tr] else []

/-- The update of the triple's stream throws, or its stream is deleted. -/
def Stops (m : LogManager) (answer : Triple → Answer) (tr : Triple) : Prop :=
  answer tr = .raised ∨ (m.find tr).getD 0 ∉ m.live

instance (answer : Triple → Answer) : DecidablePred (m.Stops answer) :=
  fun _ => inferInstanceAs (Decidable (_ ∨ _))

theorem mem_walk_type {o : Owner} {t : Str} {tr : Triple} :
    tr ∈ m.walk (.type o t) ↔ m.Registered tr ∧ tr.owner = o ∧ tr.type = t := by
  obtain ⟨o', t', l⟩ := tr
  simp only [walk, List.mem_map, Triple.mk.injEq]
  constructor
  · rintro ⟨l', hl', rfl, rfl, rfl⟩
    exact ⟨ExtTreeMap.isSome_getElem?_iff_mem.mpr (ExtTreeMap.mem_keys.mp hl'), rfl, rfl⟩
  · rintro ⟨hreg, rfl, rfl⟩
    exact ⟨l, ExtTreeMap.mem_keys.mpr (ExtTreeMap.isSome_getElem?_iff_mem.mp hreg), rfl, rfl, rfl⟩

theorem walk_owner (o : Owner) :
    m.walk (.owner o) = (m.owners.index o).keys.flatMap fun t => m.walk (.type o t) := rfl

theorem mem_walk {target : Target} {tr : Triple} :
    tr ∈ m.walk target ↔ m.Registered tr ∧ target.Covers tr := by
  cases target with
  | owner o =>
    rw [walk_owner, List.mem_flatMap]
    simp only [mem_walk_type, Target.Covers]
    constructor
    · rintro ⟨t, -, hreg, ho, -⟩
      exact ⟨hreg, ho⟩
    · rintro ⟨hreg, rfl⟩
      exact ⟨tr.type, ExtTreeMap.mem_keys.mpr (hasType_of_registered hreg), hreg, rfl, rfl⟩
  | type o t => exact mem_walk_type
  | location tr' =>
    simp only [walk, Target.Covers]
    split
    next h =>
      rw [List.mem_singleton]
      exact ⟨fun heq => ⟨heq ▸ h, heq⟩, fun h => h.2⟩
    next h =>
      simp only [List.not_mem_nil, false_iff, not_and]
      rintro hreg rfl
      exact h hreg

theorem nodup_walk (target : Target) : (m.walk target).Nodup := by
  have htype : ∀ o t, (m.walk (.type o t)).Nodup := by
    intro o t
    apply List.Nodup.map _ (OrdMap.nodup_keys _)
    intro l l' h
    exact congrArg Triple.location h
  cases target with
  | owner o =>
    rw [walk_owner, List.nodup_flatMap]
    refine ⟨fun t _ => htype o t, ?_⟩
    apply List.Pairwise.imp _ (OrdMap.nodup_keys (m.owners.index o))
    intro t t' hne tr h h'
    exact hne ((mem_walk_type.mp h).2.2.symm.trans (mem_walk_type.mp h').2.2)
  | type o t => exact htype o t
  | location tr =>
    dsimp only [walk]
    split
    · exact List.nodup_singleton tr
    · exact List.nodup_nil

/-! ## What the loops deliver -/

def deliver (m : LogManager) (evt : LogStreamEvent) (tr : Triple) : Delivery :=
  ⟨tr, (m.find tr).getD 0, evt⟩

/-- A call delivers the event to the triples up to the first one that stops it, and returns unless
one does. -/
structure Walks (m : LogManager) (evt : LogStreamEvent) (answer : Triple → Answer) (trs : List Triple)
    (r : Result) : Prop where
  delivered : r.delivered = (through (m.Stops answer) trs).map (m.deliver evt)
  returns : (∀ tr ∈ trs, ¬ m.Stops answer tr) ↔ ∃ failure, r.ending = .returned failure
  same : SameTables m r.manager

section Walks

variable {evt : LogStreamEvent} {answer : Triple → Answer}

theorem walks_nil {failure : Bool} {m' : LogManager} (h : SameTables m m') :
    Walks m evt answer [] ⟨.returned failure, [], m'⟩ :=
  ⟨rfl, iff_of_true (by simp) ⟨failure, rfl⟩, h⟩

/-- **A loop of calls** walks the lists of its calls one after the other. -/
theorem each_walks {κ : Type} {call : LogManager → κ → Result} {trs : κ → List Triple} {ks : List κ}
    (hcall : ∀ m', SameTables m m' → ∀ k ∈ ks, Walks m evt answer (trs k) (call m' k))
    (failure : Bool) {m' : LogManager} (hm' : SameTables m m') :
    Walks m evt answer (ks.flatMap trs) (each call ks failure m') := by
  induction ks generalizing failure m' with
  | nil => exact walks_nil hm'
  | cons k ks ih =>
    have hk := hcall m' hm' k List.mem_cons_self
    rw [List.flatMap_cons]
    unfold each
    dsimp only
    split
    next f hend =>
      have hquiet := hk.returns.mpr ⟨f, hend⟩
      have hrest := ih (fun m' hm' k hk => hcall m' hm' k (List.mem_cons_of_mem _ hk)) (failure || f)
        hk.same
      constructor
      · dsimp only
        rw [through_append_of_forall _ hquiet, List.map_append, hk.delivered,
          through_of_forall hquiet, hrest.delivered]
      · rw [List.forall_mem_append, and_iff_right hquiet]
        exact hrest.returns
      · exact hrest.same
    next hend =>
      have hstops : ∃ tr ∈ trs k, m.Stops answer tr := by
        by_contra hnone
        push Not at hnone
        obtain ⟨f, hf⟩ := hk.returns.mp hnone
        exact hend f hf
      constructor
      · rw [through_append_of_exists _ hstops, hk.delivered]
      · refine iff_of_false ?_ ?_
        · intro hall
          obtain ⟨tr, htr, hstop⟩ := hstops
          exact hall tr (List.mem_append_left _ htr) hstop
        · rintro ⟨f, hf⟩
          exact hend f hf
      · exact hk.same

theorem notifyLocation_walks (hm : m.Sound) {m' : LogManager} (h : SameTables m m') (tr : Triple) :
    Walks m evt answer (m.walk (.location tr)) (m'.notifyLocation evt answer tr) := by
  have hsame : SameTables m (m'.contains tr).2 := h.trans (same_contains m' tr)
  have hfst : (m'.contains tr).1 = true ↔ m.Registered tr ∧ tr.owner ∈ m.ownersOf tr.location := by
    rw [fst_contains, decide_eq_true_iff, registered_of_same h, h.ownersOf]
  unfold notifyLocation walk
  dsimp only
  by_cases hreg : m.Registered tr
  · obtain ⟨ls, hls⟩ := Option.isSome_iff_exists.mp hreg
    have hdeliver : m.deliver evt tr = ⟨tr, ls, evt⟩ := by rw [deliver, hls, Option.getD_some]
    have hstops : m.Stops answer tr ↔ answer tr = .raised ∨ ls ∉ m.live := by
      rw [Stops, hls, Option.getD_some]
    rw [if_pos hreg, if_pos (hfst.mpr ⟨hreg, hm.owner tr hreg⟩)]
    refine ⟨?_, ?_, ?_⟩
    · unfold update
      rw [hsame.find, hls]
      dsimp only
      rw [through, through, ite_self, List.map_singleton, hdeliver]
      split
      · split <;> rfl
      · rfl
    · rw [List.forall_mem_singleton, hstops]
      unfold update
      rw [hsame.find, hls, hsame.live]
      dsimp only
      split
      next hlive =>
        split
        next f hf => simp [hf, hlive]
        next hf => simp [hf]
      next hlive => simp [hlive]
    · rw [update_manager]
      exact hsame
  · rw [if_neg hreg, if_neg fun h => hreg (hfst.mp h).1]
    exact walks_nil hsame

/-- The categories are the same, when both are looked up. -/
theorem index_of_same {m' : LogManager} (h : SameTables m m') (o : Owner) (t : Str) :
    (m'.owners.index o).index t = (m.owners.index o).index t := by
  apply ExtTreeMap.ext_getElem?
  intro l
  exact h.find ⟨o, t, l⟩

theorem notifyType_walks (hm : m.Sound) {m' : LogManager} (h : SameTables m m') (o : Owner) (t : Str) :
    Walks m evt answer (m.walk (.type o t)) (notifyType o evt answer m' t) := by
  have hsame : SameTables m (m'.touchOwner o) := h.trans (same_touchOwner m' o)
  unfold notifyType containsType
  dsimp only
  split
  next hfound =>
    rw [index_of_same hsame]
    have hwalk : m.walk (.type o t) =
        ((m.owners.index o).index t).keys.flatMap fun l => m.walk (.location ⟨o, t, l⟩) := by
      rw [walk, List.map_eq_flatMap]
      apply List.flatMap_congr
      intro l hl
      rw [walk, if_pos]
      exact ExtTreeMap.isSome_getElem?_iff_mem.mpr (ExtTreeMap.mem_keys.mp hl)
    rw [hwalk]
    apply each_walks _ _ hsame
    exact fun m' hm' l _ => notifyLocation_walks hm hm' ⟨o, t, l⟩
  next hfound =>
    -- without the category there is no triple
    have hnone : m.walk (.type o t) = [] := by
      have hempty : (m'.owners.index o).index t = ∅ := by
        have hnot : ¬ m'.HasType o t := by simpa using hfound
        exact OrdMap.index_of_not_mem hnot
      rw [walk, ← index_of_same h, hempty]
      rfl
    rw [hnone]
    exact walks_nil hsame

theorem notifyOwner_walks (hm : m.Sound) (o : Owner) :
    Walks m evt answer (m.walk (.owner o)) (m.notifyOwner o evt answer) := by
  unfold notifyOwner
  split
  next hfound =>
    rw [walk_owner]
    apply each_walks _ _ (SameTables.refl m)
    exact fun m' hm' t _ => notifyType_walks hm hm' o t
  next hfound =>
    have hnone : m.walk (.owner o) = [] := by
      have hempty : m.owners.index o = ∅ := by
        have hnot : ¬ m.HasOwner o := by simpa [containsOwner] using hfound
        exact OrdMap.index_of_not_mem hnot
      rw [walk, hempty]
      rfl
    rw [hnone]
    exact walks_nil (SameTables.refl m)

theorem notify_walks (hm : m.Sound) (target : Target) :
    Walks m evt answer (m.walk target) (m.notify evt answer target) := by
  cases target with
  | owner o => exact notifyOwner_walks hm o
  | type o t => exact notifyType_walks hm (SameTables.refl m) o t
  | location tr => exact notifyLocation_walks hm (SameTables.refl m) tr

end Walks

/-! ## Messages -/

theorem send_delivered_none (answer : Triple → Answer) {msg : Message} (h : msg.event m = none) :
    (m.send answer msg).delivered = [] := by
  cases msg with
  | log message appendNL level target =>
    dsimp only [Message.event] at h
    change (m.log message appendNL level answer target).delivered = []
    unfold log
    split
    next => rfl
    next hlevel =>
      rw [if_neg hlevel] at h
      contradiction
  | logFormat o t level stamp appendNL fmt args =>
    dsimp only [Message.event] at h
    change (m.logFormat o t level stamp appendNL fmt args answer).delivered = []
    unfold logFormat
    split
    next => rfl
    next hlevel =>
      rw [if_neg hlevel, Option.map_eq_none_iff] at h
      rw [h]
  | close target => contradiction
  | setCycle cycle target => contradiction
  | chown uid gid target => contradiction

/-- **What a message delivers**: its event, to the triples that it walks up to the first that stops. -/
theorem send_delivered (hm : m.Sound) (answer : Triple → Answer) {msg : Message}
    {evt : LogStreamEvent} (h : msg.event m = some evt) :
    (m.send answer msg).delivered = (through (m.Stops answer) (m.walk msg.walks)).map (m.deliver evt) := by
  cases msg with
  | log message appendNL level target =>
    dsimp only [Message.event] at h
    change (m.log message appendNL level answer target).delivered = _
    unfold log
    split at h
    next => contradiction
    next hlevel =>
      cases h
      rw [if_neg hlevel, caught_delivered]
      exact (notify_walks hm target).delivered
  | logFormat o t level stamp appendNL fmt args =>
    dsimp only [Message.event] at h
    change (m.logFormat o t level stamp appendNL fmt args answer).delivered = _
    unfold logFormat
    split at h
    next => contradiction
    next hlevel =>
      obtain ⟨text, htext, rfl⟩ := Option.map_eq_some_iff.mp h
      rw [if_neg hlevel, htext]
      dsimp only
      rw [caught_delivered]
      exact (notify_walks hm (.type o t)).delivered
  | close target =>
    cases h
    exact (notify_walks hm target).delivered
  | setCycle cycle target =>
    cases h
    exact (notify_walks hm target).delivered
  | chown uid gid target =>
    cases h
    cases target with
    | owner o => exact (notify_walks hm (.owner o)).delivered
    | type o t => exact (notify_walks hm (.owner o)).delivered
    | location tr => exact (notify_walks hm (.location tr)).delivered

/-- The triples that a message with an event is for. -/
def Due (m : LogManager) (msg : Message) (tr : Triple) : Prop :=
  (msg.event m).isSome ∧ m.Registered tr ∧ msg.target.Covers tr

/-- The event goes once to each triple it is for, by its own stream, and to no other triple. -/
structure DeliversExactly (m : LogManager) (answer : Triple → Answer) (msg : Message) : Prop where
  once : ∀ tr, m.Due msg tr → ((m.send answer msg).delivered.map Delivery.triple).count tr = 1
  noOther : ∀ tr, ¬ m.Due msg tr → tr ∉ (m.send answer msg).delivered.map Delivery.triple
  event : ∀ d ∈ (m.send answer msg).delivered,
    msg.event m = some d.event ∧ m.find d.triple = some d.stream

/-- Nothing that the message walks before the triple stops it. -/
def Unhindered (m : LogManager) (answer : Triple → Answer) (msg : Message) (tr : Triple) : Prop :=
  ∀ before after, m.walk msg.walks = before ++ tr :: after → ∀ tr' ∈ before, ¬ m.Stops answer tr'

theorem covers_of_target {msg : Message} {tr : Triple} (h : msg.target.Covers tr) :
    msg.walks.Covers tr := by
  cases msg with
  | chown uid gid target =>
    cases target with
    | type o t => exact h.1
    | owner o => exact h
    | location tr' => exact h
  | _ => exact h

theorem triples_delivered (hm : m.Sound) (answer : Triple → Answer) {msg : Message}
    {evt : LogStreamEvent} (h : msg.event m = some evt) :
    (m.send answer msg).delivered.map Delivery.triple =
      through (m.Stops answer) (m.walk msg.walks) := by
  rw [send_delivered hm answer h, List.map_map]
  exact List.map_id _

theorem mem_delivered (hm : m.Sound) (answer : Triple → Answer) {msg : Message}
    {evt : LogStreamEvent} (h : msg.event m = some evt) (tr : Triple) :
    tr ∈ (m.send answer msg).delivered.map Delivery.triple ↔
      tr ∈ m.walk msg.walks ∧ m.Unhindered answer msg tr := by
  rw [triples_delivered hm answer h]
  constructor
  · intro hmem
    have hwalk : tr ∈ m.walk msg.walks := (through_sublist _).subset hmem
    exact ⟨hwalk, (mem_through (nodup_walk _) hwalk).mp hmem⟩
  · rintro ⟨hwalk, hun⟩
    exact (mem_through (nodup_walk _) hwalk).mpr hun

end LogManager

/-- **When a message is delivered to its target exactly.** It reaches, before a stream stops it, the
triples of its target and no others. -/
theorem deliversExactly_iff {m : LogManager} (hm : Reachable m) (answer : Triple → Answer)
    (msg : Message) :
    m.DeliversExactly answer msg ↔
      msg.event m = none ∨ ∀ tr ∈ m.walk msg.walks,
        (msg.target.Covers tr ↔ m.Unhindered answer msg tr) := by
  cases hevent : msg.event m with
  | none =>
    have hnone := LogManager.send_delivered_none answer hevent
    refine iff_of_true ⟨?_, ?_, ?_⟩ (Or.inl rfl)
    · intro tr hdue
      exact absurd hdue.1 (by simp [hevent])
    · simp [hnone]
    · simp [hnone]
  | some evt =>
    have hmem := LogManager.mem_delivered hm.sound answer hevent
    have hdue : ∀ tr, m.Due msg tr ↔ m.Registered tr ∧ msg.target.Covers tr := by
      intro tr
      simp [LogManager.Due, hevent]
    simp only [reduceCtorEq, false_or]
    constructor
    · intro hexact tr htr
      have hreg : m.Registered tr := (LogManager.mem_walk.mp htr).1
      constructor
      · intro hcovers
        have hcount := hexact.once tr ((hdue tr).mpr ⟨hreg, hcovers⟩)
        have hin := List.count_pos_iff.mp (hcount.symm ▸ Nat.one_pos)
        exact ((hmem tr).mp hin).2
      · intro hun
        by_contra hcovers
        apply hexact.noOther tr fun h => hcovers ((hdue tr).mp h).2
        exact (hmem tr).mpr ⟨htr, hun⟩
    · intro hcond
      refine ⟨?_, ?_, ?_⟩
      · intro tr h
        obtain ⟨hreg, hcovers⟩ := (hdue tr).mp h
        have hwalk : tr ∈ m.walk msg.walks :=
          LogManager.mem_walk.mpr ⟨hreg, LogManager.covers_of_target hcovers⟩
        have hin := (hmem tr).mpr ⟨hwalk, (hcond tr hwalk).mp hcovers⟩
        rw [LogManager.triples_delivered hm.sound answer hevent] at hin ⊢
        exact List.count_eq_one_of_mem ((LogManager.nodup_walk _).sublist (through_sublist _)) hin
      · intro tr h hin
        obtain ⟨hwalk, hun⟩ := (hmem tr).mp hin
        exact h ((hdue tr).mpr ⟨(LogManager.mem_walk.mp hwalk).1, (hcond tr hwalk).mpr hun⟩)
      · intro d hd
        rw [LogManager.send_delivered hm.sound answer hevent] at hd
        obtain ⟨tr, htr, rfl⟩ := List.mem_map.mp hd
        have hreg : m.Registered tr := (LogManager.mem_walk.mp ((through_sublist _).subset htr)).1
        obtain ⟨ls, hls⟩ := Option.isSome_iff_exists.mp hreg
        exact ⟨hevent, by rw [LogManager.deliver, hls, Option.getD_some]⟩

/-- One owner with a log in each of two categories. -/
def twoLogs : LogManager :=
  Run.last step
    [.add (fileTriple 1 "MAINLOG") plainSurroundings,
      .add ⟨1, ascii "ACCESS", ascii "file://b"⟩ plainSurroundings] (LogManager.init .info)

theorem twoLogs_reachable : Reachable twoLogs := ⟨.info, _, rfl⟩

/-- Both logs of the owner are closed. -/
theorem deliversExactly_close : twoLogs.DeliversExactly (fun _ => .returned false) (.close (.owner 1)) := by
  apply (deliversExactly_iff twoLogs_reachable _ _).mpr
  have hcovers : ∀ tr ∈ twoLogs.walk (.owner 1), tr.owner = 1 := by decide
  have hquiet : ∀ tr ∈ twoLogs.walk (.owner 1), ¬ twoLogs.Stops (fun _ => .returned false) tr := by
    decide
  refine Or.inr fun tr htr => iff_of_true (hcovers tr htr) ?_
  intro before after hwalk tr' htr'
  apply hquiet tr'
  exact hwalk ▸ List.mem_append_left _ htr'

/-- `chown` of the access log is delivered to the main log too. -/
theorem not_deliversExactly :
    ¬ ∀ (m : LogManager), Reachable m → ∀ (answer : Triple → Answer) (msg : Message),
      m.DeliversExactly answer msg := by
  intro h
  have hexact := h twoLogs twoLogs_reachable (fun _ => .returned false)
    (.chown (ascii "www") (ascii "www") (.type 1 (ascii "ACCESS")))
  apply hexact.noOther (fileTriple 1 "MAINLOG")
  · rintro ⟨-, -, -, htype⟩
    revert htype
    decide
  · decide

end MyServer.Log
