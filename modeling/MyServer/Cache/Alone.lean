import MyServer.Cache.Threads

/-!
# Calls that nothing interrupts

When a thread goes on alone while no mutex is taken, the pieces of a call come to what
`factoryOpen` and `close` say about the whole call.
-/

open MyServer.Run

namespace MyServer.Cache

/-- The record of the `CachedFile` that a call returns. -/
def Outcome.handle : Outcome → Option Nat
  | .cached r => some r
  | _ => none

section Alone

variable (spaceUsage : UInt64 → UInt64 → Usage) (t : Nat) (a : Answers)

/-- The thread comes from `c` to `c'` in some pieces. -/
def GoesTo (c c' : Shared) : Prop :=
  ∃ n, last (threadStep spaceUsage) (List.replicate n (t, .go a)) c = c'

/-- No call is under way, as far as the thread and the mutexes tell. -/
structure Free (c : Shared) : Prop where
  idle : c.calls t = .idle
  lock : c.lock = none
  owner : ∀ r, c.owner r = none

variable {spaceUsage t a} {c c' c'' : Shared}

theorem GoesTo.refl : GoesTo spaceUsage t a c c := ⟨0, rfl⟩

theorem GoesTo.step {call : Call} (hcall : c.calls t = call)
    (h : goOn spaceUsage c t a call = some c') (hrest : GoesTo spaceUsage t a c' c'') :
    GoesTo spaceUsage t a c c'' := by
  obtain ⟨n, hn⟩ := hrest
  refine ⟨n + 1, ?_⟩
  have hstep : threadStep spaceUsage c (t, .go a) = some (c', c') := by
    have hadvance : advance spaceUsage c t (.go a) = some c' := by
      dsimp only [advance]
      rw [hcall, h]
    rw [threadStep, hadvance]
    rfl
  rw [List.replicate_succ, last, hstep]
  exact hn

@[simp] theorem calls_put (c : Shared) (t : Nat) (call : Call) : (c.put t call).calls t = call :=
  Function.update_self ..

/-- The last piece gives back the mutex of a record. -/
theorem goesTo_unlocks {q : Nat} (hcall : c.calls t = .unlocks q) (hlock : c.lock = none)
    (howner : ∀ r ≠ q, c.owner r = none) : ∃ c', GoesTo spaceUsage t a c c' ∧ Free t c' ∧
      c'.factory = c.factory ∧ c'.handles = c.handles := by
  refine ⟨{ c.put t .idle with owner := Function.update c.owner q none },
    .step hcall rfl .refl, ⟨calls_put c t .idle, hlock, fun r => ?_⟩, rfl, rfl⟩
  by_cases hr : r = q
  · rw [hr]
    exact Function.update_self ..
  · exact (Function.update_of_ne hr ..).trans (howner r hr)

theorem goesTo_takes {r : Nat} (hcall : c.calls t = .takes r) (hlock : c.lock = none)
    (howner : ∀ q ≠ r, c.owner q = none) : ∃ c', GoesTo spaceUsage t a c c' ∧ Free t c' ∧
      c'.factory = c.factory.addRef r ∧ c'.handles = r :: c.handles := by
  obtain ⟨c', hgoes, hfree, hfactory, hhandles⟩ := @goesTo_unlocks spaceUsage t a
    { c.put t (.unlocks r) with factory := c.factory.addRef r, handles := r :: c.handles } r
    (calls_put c t (.unlocks r)) hlock howner
  exact ⟨c', .step hcall rfl hgoes, hfree, hfactory, hhandles⟩

/-- A record that is in the table. -/
theorem goesTo_hit {filename : Str} {r : Nat} (hcall : c.calls t = .waits filename r)
    (howner : ∀ q, c.owner q = none) : ∃ c', GoesTo spaceUsage t a c c' ∧ Free t c' ∧
      c'.factory = (openHit c.factory r a).2 ∧
      c'.handles = (openHit c.factory r a).1.handle.toList ++ c.handles := by
  have hlocked : goOn spaceUsage c t a (.waits filename r) = some
      { c.put t (.checks filename r) with lock := none, owner := Function.update c.owner r (some t) } :=
    if_pos (howner r)
  have hothers : ∀ q ≠ r, Function.update c.owner r (some t) q = none := fun q hq =>
    (Function.update_of_ne hq ..).trans (howner q)
  unfold openHit
  dsimp only
  by_cases hbypass : (c.factory.revalidate r a).bypasses r a = true
  · rw [if_pos hbypass]
    refine ⟨_, .step hcall hlocked (.step (calls_put _ _ _) (if_pos hbypass) .refl),
      ⟨Function.update_self .., rfl, fun q => ?_⟩, rfl, ?_⟩
    · by_cases hq : q = r
      · rw [hq]
        exact Function.update_self ..
      · exact (Function.update_of_ne hq ..).trans (hothers q hq)
    · unfold openFile
      split_ifs <;> rfl
  · rw [if_neg hbypass]
    obtain ⟨c', hgoes, hfree, hfactory, hhandles⟩ := @goesTo_takes spaceUsage t a
      { ({ c.put t (.checks filename r) with
          lock := none, owner := Function.update c.owner r (some t) } : Shared).put t (.takes r) with
        factory := c.factory.revalidate r a } r (calls_put _ _ _) rfl hothers
    exact ⟨c', .step hcall hlocked (.step (calls_put _ _ _) (if_neg hbypass) hgoes), hfree, hfactory, hhandles⟩

/-- A file that is not in the table. -/
theorem goesTo_miss {filename : Str} (hcall : c.calls t = .opensFile filename) (hlock : c.lock = none)
    (howner : ∀ q, c.owner q = none) : ∃ c', GoesTo spaceUsage t a c c' ∧ Free t c' ∧
      c'.factory = (openMiss c.factory filename a).2 ∧
      c'.handles = (openMiss c.factory filename a).1.handle.toList ++ c.handles := by
  have hidle : Free t (c.put t .idle) := ⟨calls_put c t .idle, hlock, howner⟩
  unfold openMiss
  cases hfile : a.file with
  | none => exact ⟨_, .step hcall (by rw [goOn, hfile]) .refl, hidle, rfl, rfl⟩
  | some info =>
    dsimp only
    by_cases hlarge : c.factory.tooLarge info.fileSize = true
    · rw [if_pos hlarge]
      exact ⟨_, .step hcall (by rw [goOn, hfile]; exact if_pos hlarge) .refl, hidle, rfl, rfl⟩
    · rw [if_neg hlarge]
      obtain ⟨c', hgoes, hfree, hfactory, hhandles⟩ := @goesTo_takes spaceUsage t a
        { c.put t (.takes c.factory.next) with
          factory := c.factory.insert filename info a.ticks
          owner := Function.update c.owner c.factory.next (some t) } c.factory.next (calls_put _ _ _) hlock
        fun q hq => (Function.update_of_ne hq ..).trans (howner q)
      exact ⟨c', .step hcall (by rw [goOn, hfile]; exact if_neg hlarge) hgoes, hfree, hfactory, hhandles⟩

theorem goesTo_purges {filename : Str} (hcall : c.calls t = .purges filename)
    (howner : ∀ q, c.owner q = none) : ∃ c', GoesTo spaceUsage t a c c' ∧ Free t c' ∧
      c'.factory = (factoryOpen c.factory filename a).2 ∧
      c'.handles = (factoryOpen c.factory filename a).1.handle.toList ++ c.handles := by
  let purged : Shared := { c.put t (.looksUp filename) with factory := c.factory.purgeRecords }
  have hpurged : goOn spaceUsage c t a (.purges filename) = some purged := rfl
  have hcalls : purged.calls t = .looksUp filename := calls_put c t _
  unfold factoryOpen
  dsimp only
  cases hget : c.factory.purgeRecords.get filename with
  | some r =>
    obtain ⟨c', hgoes, hresult⟩ := @goesTo_hit spaceUsage t a (purged.put t (.waits filename r))
      filename r (calls_put _ _ _) howner
    refine ⟨c', .step hcall hpurged (.step hcalls ?_ hgoes), hresult⟩
    dsimp only [goOn, purged]
    rw [hget]
  | none =>
    obtain ⟨c', hgoes, hresult⟩ := @goesTo_miss spaceUsage t a
      { purged.put t (.opensFile filename) with lock := none } filename (calls_put _ _ _) rfl howner
    refine ⟨c', .step hcall hpurged (.step hcalls ?_ hgoes), hresult⟩
    dsimp only [goOn, purged]
    rw [hget]

/-- **An uninterrupted `open`** does what `factoryOpen` does. -/
theorem goesTo_open (hfree : Free t c) (filename : Str) : ∃ c' c'',
    advance spaceUsage c t (.open filename) = some c' ∧ GoesTo spaceUsage t a c' c'' ∧ Free t c'' ∧
      c''.factory = (factoryOpen c.factory filename a).2 ∧
      c''.handles = (factoryOpen c.factory filename a).1.handle.toList ++ c.handles := by
  obtain ⟨c'', hresult⟩ := @goesTo_purges spaceUsage t a
    { c.put t (.purges filename) with lock := some t } filename (calls_put _ _ _) hfree.owner
  refine ⟨_, c'', ?_, hresult⟩
  dsimp only [advance]
  rw [hfree.idle]
  exact if_pos hfree.lock

theorem goesTo_decides {filename : Str} {q : Nat} {usage : Usage}
    (hcall : c.calls t = .decides filename q usage) (hget : c.factory.get filename = some q)
    (hlock : c.lock = none) (howner : ∀ r ≠ q, c.owner r = none) :
    ∃ c', GoesTo spaceUsage t a c c' ∧ Free t c' ∧ c'.handles = c.handles ∧
      c'.factory =
        if c.factory.leaves q usage a.ticks then c.factory.remove filename else c.factory := by
  by_cases hleaves : c.factory.leaves q usage a.ticks = true
  · obtain ⟨c', hgoes, hfree, hfactory, hhandles⟩ := @goesTo_unlocks spaceUsage t a
      { c.put t (.unlocks q) with factory := c.factory.remove filename } q (calls_put _ _ _) hlock howner
    refine ⟨c', .step hcall ?_ hgoes, hfree, hhandles, by rw [if_pos hleaves]; exact hfactory⟩
    dsimp only [goOn]
    rw [if_pos hleaves, hget]
  · obtain ⟨c', hgoes, hfree, hfactory, hhandles⟩ := @goesTo_unlocks spaceUsage t a
      (c.put t (.unlocks q)) q (calls_put _ _ _) hlock howner
    refine ⟨c', .step hcall ?_ hgoes, hfree, hhandles, by rw [if_neg hleaves]; exact hfactory⟩
    dsimp only [goOn]
    rw [if_neg hleaves]

theorem goesTo_nulls {r : Nat} {cfb : Record} (hcall : c.calls t = .nulls r)
    (hcfb : c.factory.heap r = some cfb) (hlock : c.lock = none) (howner : ∀ q, c.owner q = none) :
    ∃ c', GoesTo spaceUsage t a c c' ∧ Free t c' ∧ c'.handles = c.handles ∧
      c'.factory = nullReferences spaceUsage c.factory cfb a.ticks := by
  have hidle : Free t (c.put t .idle) := ⟨calls_put c t .idle, hlock, howner⟩
  unfold nullReferences
  by_cases hbelow : (spaceUsage c.factory.usedSize c.factory.size).below65 = true
  · rw [if_pos hbelow]
    exact ⟨_, .step hcall (if_pos hbelow) .refl, hidle, rfl, rfl⟩
  · rw [if_neg hbelow]
    cases hget : c.factory.get cfb.filename with
    | none =>
      refine ⟨_, .step hcall ?_ .refl, hidle, rfl, rfl⟩
      dsimp only [goOn]
      rw [if_neg hbelow, hcfb]
      dsimp only
      rw [hget]
    | some q =>
      let usage := spaceUsage c.factory.usedSize c.factory.size
      let wanted := c.put t (.wants cfb.filename q usage)
      have hwanted : goOn spaceUsage c t a (.nulls r) = some wanted := by
        dsimp only [goOn, wanted]
        rw [if_neg hbelow, hcfb]
        dsimp only
        rw [hget]
      have hlocked : goOn spaceUsage wanted t a (.wants cfb.filename q usage) = some
          { wanted.put t (.decides cfb.filename q usage) with
            owner := Function.update c.owner q (some t) } := if_pos (howner q)
      obtain ⟨c', hgoes, hresult⟩ := @goesTo_decides spaceUsage t a
        { wanted.put t (.decides cfb.filename q usage) with
          owner := Function.update c.owner q (some t) } cfb.filename q usage (calls_put _ _ _) hget hlock
        fun r hr => (Function.update_of_ne hr ..).trans (howner r)
      exact ⟨c', .step hcall hwanted (.step (calls_put _ _ _) hlocked hgoes), hresult⟩

/-- **An uninterrupted `close`** of a `CachedFile` whose buffer is there does what `close` does. -/
theorem goesTo_close (hfree : Free t c) {r : Nat} (hr : r ∈ c.handles)
    (halive : (c.factory.heap r).isSome) : ∃ c' c'',
    advance spaceUsage c t (.close r) = some c' ∧ GoesTo spaceUsage t a c' c'' ∧ Free t c'' ∧
      c''.handles = c.handles.erase r ∧ c''.factory = close spaceUsage c.factory r a.ticks := by
  have hadvance : advance spaceUsage c t (.close r) = some (decRef c t r) := by
    dsimp only [advance]
    rw [hfree.idle]
    exact if_pos hr
  have hsome : ((c.factory.decRef r).heap r).isSome := (Factory.isSome_modify _ _ _ r).trans halive
  obtain ⟨cfb, hcfb⟩ := Option.isSome_iff_exists.mp hsome
  have hcount : refCounter (c.factory.decRef r).heap r = cfb.refCounter := by rw [refCounter, hcfb]; rfl
  have hclose : close spaceUsage c.factory r a.ticks =
      if cfb.refCounter = 0 then nullReferences spaceUsage (c.factory.decRef r) cfb a.ticks
      else c.factory.decRef r := by rw [close, hcfb]
  have hcalls : (decRef c t r).calls t = if cfb.refCounter = 0 then .nulls r else .idle := by
    rw [← hcount]
    exact calls_put _ _ _
  rw [hclose]
  by_cases hzero : cfb.refCounter = 0
  · rw [if_pos hzero] at hcalls ⊢
    obtain ⟨c'', hresult⟩ := @goesTo_nulls spaceUsage t a (decRef c t r) r cfb hcalls hcfb hfree.lock
      hfree.owner
    exact ⟨_, c'', hadvance, hresult⟩
  · rw [if_neg hzero] at hcalls ⊢
    exact ⟨_, _, hadvance, .refl, ⟨hcalls, hfree.lock, hfree.owner⟩, rfl, rfl⟩

end Alone

end MyServer.Cache
