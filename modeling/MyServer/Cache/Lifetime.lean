import MyServer.Cache.Threads
import MyServer.Cache.Accounting

/-!
# How long a cached buffer lives

A purge spares the records with an open `CachedFile`. It does not know of a thread
that has found a record and is about to open it.
-/

open MyServer.Run

namespace MyServer.Cache

/-- The call is an `open` that has found the record and has not made its `CachedFile` yet. -/
def Call.Finds (r : Nat) : Call → Prop
  | .waits _ r' | .checks _ r' | .takes r' => r' = r
  | _ => False

def Call.Purges : Call → Prop
  | .purges _ => True
  | _ => False

/-- A purge deletes no record that some `open` is about to open. -/
def Careful (e : Entry Shared (Nat × Action) Shared) : Prop :=
  (e.before.calls e.input.1).Purges → ∀ t r, (e.before.calls t).Finds r → ¬ e.before.factory.Dead r

structure Lasting (e : Entry Shared (Nat × Action) Shared) : Prop where
  /-- The buffer of a `CachedFile` that is open has not been deleted. -/
  alive : ∀ r ∈ e.outcome.handles, (e.outcome.factory.heap r).isSome
  /-- No record is in both containers, or in one of them twice. -/
  once : e.outcome.factory.held.Nodup
  /-- A record that waits for removal is deleted, unless a `CachedFile` is open on it. -/
  deleted : (e.before.calls e.input.1).Purges → ∀ r ∈ e.before.factory.buffersToRemove,
    r ∉ e.before.handles → e.outcome.factory.heap r = none

/-- Each piece of the run is as `P` says. -/
def Throughout (P : Entry Shared (Nat × Action) Shared → Prop) (spaceUsage : UInt64 → UInt64 → Usage)
    (size : UInt64) (steps : List (Nat × Action)) : Prop :=
  ∀ e ∈ run (threadStep spaceUsage) steps (start size), P e

structure Inv (c : Shared) : Prop where
  wellFormed : WellFormed c.factory
  alive : ∀ r ∈ c.handles, (c.factory.heap r).isSome
  counted : ∀ r, (c.factory.heap r).isSome → refCounter c.factory.heap r = c.handles.count r
  found : ∀ t r, (c.calls t).Finds r → (c.factory.heap r).isSome

variable {c : Shared}

theorem Inv.start (size : UInt64) : Inv (start size) where
  wellFormed := .new size
  alive := fun r hr => absurd hr List.not_mem_nil
  counted := fun r hr => by cases hr
  found := fun t r hr => hr.elim

/-! ## What each piece does to the records -/

theorem refCounter_modify (f : Factory) (r q : Nat) (g : Record → Record) :
    refCounter (f.modify r g).heap q =
      if q = r then (f.heap r).elim 0 fun record => (g record).refCounter else refCounter f.heap q := by
  unfold Factory.modify refCounter
  dsimp only
  split_ifs with h
  · rw [h, Function.update_self]
    cases f.heap r <;> rfl
  · rw [Function.update_of_ne h]

theorem heap_remove (f : Factory) (filename : Str) : (f.remove filename).heap = f.heap := by
  unfold Factory.remove
  split <;> rfl

/-! ## What each piece keeps -/

/-- A call that has found nothing new. -/
theorem found_put {heap : Nat → Option Record} {t : Nat} {call : Call}
    (hfound : ∀ t r, (c.calls t).Finds r → (heap r).isSome)
    (hcall : ∀ r, call.Finds r → (heap r).isSome) :
    ∀ t' r, ((c.put t call).calls t').Finds r → (heap r).isSome := by
  intro t' r h
  unfold Shared.put at h
  dsimp only at h
  by_cases ht : t' = t
  · rw [ht, Function.update_self] at h
    exact hcall r h
  · rw [Function.update_of_ne ht] at h
    exact hfound t' r h

/-- The invariant speaks of the records, of what the calls have found and of the open files. -/
theorem Inv.put (h : Inv c) (t : Nat) {call : Call}
    (hcall : ∀ r, call.Finds r → (c.factory.heap r).isSome) (lock : Option Nat)
    (owner : Nat → Option Nat) : Inv { c.put t call with lock := lock, owner := owner } :=
  ⟨h.wellFormed, h.alive, h.counted, found_put h.found hcall⟩

theorem Inv.counted_record (h : Inv c) {r : Nat} {record : Record}
    (hrecord : c.factory.heap r = some record) : record.refCounter = c.handles.count r := by
  have hcount := h.counted r (by rw [hrecord]; rfl)
  rw [refCounter, hrecord] at hcount
  exact hcount

/-- A record is changed, and so are the open files. -/
theorem Inv.modify (h : Inv c) (r : Nat) (g : Record → Record) (handles : List Nat)
    (halive : ∀ q ∈ handles, (c.factory.heap q).isSome)
    (hcount : ∀ record, c.factory.heap r = some record → (g record).refCounter = handles.count r)
    (hother : ∀ q ≠ r, handles.count q = c.handles.count q) :
    Inv { c with factory := c.factory.modify r g, handles := handles } := by
  have hsome := Factory.isSome_modify c.factory r g
  refine ⟨h.wellFormed.modify r g, fun q hq => ?_, fun q hq => ?_, fun t q hq => ?_⟩
  · rw [hsome]
    exact halive q hq
  · rw [hsome] at hq
    dsimp only
    rw [refCounter_modify]
    split_ifs with hqr
    · subst hqr
      obtain ⟨record, hrecord⟩ := Option.isSome_iff_exists.mp hq
      rw [hrecord]
      exact hcount record hrecord
    · rw [h.counted q hq, hother q hqr]
  · rw [hsome]
    exact h.found t q hq

/-- A piece that changes a record in nothing that the invariant speaks of. -/
theorem Inv.revalidate (h : Inv c) (r : Nat) (a : Answers) :
    Inv { c with factory := c.factory.revalidate r a } := by
  obtain ⟨g, hg, heq⟩ := c.factory.heap_revalidate r a
  rw [heq]
  refine h.modify r g c.handles h.alive (fun record hrecord => ?_) fun q _ => rfl
  rw [(hg record).2.1, h.counted_record hrecord]

theorem Inv.remove (h : Inv c) (filename : Str) :
    Inv { c with factory := c.factory.remove filename } := by
  refine ⟨h.wellFormed.remove filename, ?_, ?_, ?_⟩
  · rw [heap_remove]
    exact h.alive
  · rw [heap_remove]
    exact h.counted
  · rw [heap_remove]
    exact h.found

/-- A new record has no `CachedFile` yet. -/
theorem Inv.insert (h : Inv c) (filename : Str) (info : FileInfo) (ticks : UInt64) :
    Inv { c with factory := c.factory.insert filename info ticks } := by
  have hnext : c.factory.heap c.factory.next = none := h.wellFormed.fresh _ le_rfl
  have hne : ∀ {q}, (c.factory.heap q).isSome → q ≠ c.factory.next := by
    rintro q hq rfl
    rw [hnext] at hq
    cases hq
  have hold : ∀ {q}, (c.factory.heap q).isSome →
      (c.factory.insert filename info ticks).heap q = c.factory.heap q := fun hq =>
    Factory.heap_insert_of_ne _ _ _ _ (hne hq)
  refine ⟨h.wellFormed.insert filename info ticks, fun q hq => ?_, fun q hq => ?_, fun t q hq => ?_⟩
  · exact (congrArg Option.isSome (hold (h.alive q hq))).trans (h.alive q hq)
  · dsimp only at hq ⊢
    by_cases hq' : q = c.factory.next
    · have hcount : c.handles.count q = 0 :=
        List.count_eq_zero.mpr fun hmem => hne (h.alive q hmem) hq'
      rw [hcount, hq', refCounter, Factory.heap_insert_next]
      rfl
    · have hheap : (c.factory.insert filename info ticks).heap q = c.factory.heap q :=
        Factory.heap_insert_of_ne _ _ _ _ hq'
      rw [hheap] at hq
      rw [refCounter, hheap]
      exact h.counted q hq
  · exact (congrArg Option.isSome (hold (h.found t q hq))).trans (h.found t q hq)

/-- A `CachedFile` is made on a record that is alive. -/
theorem Inv.addRef (h : Inv c) {r : Nat} (hr : (c.factory.heap r).isSome) :
    Inv { c with factory := c.factory.addRef r, handles := r :: c.handles } := by
  refine h.modify r _ (r :: c.handles) (fun q hq => ?_) (fun record hrecord => ?_) fun q hq => ?_
  · rcases List.mem_cons.mp hq with rfl | hq
    · exact hr
    · exact h.alive q hq
  · rw [List.count_cons_self, ← h.counted_record hrecord]
  · exact List.count_cons_of_ne (Ne.symm hq)

theorem Inv.decRef (h : Inv c) {r : Nat} :
    Inv { c with factory := c.factory.decRef r, handles := c.handles.erase r } := by
  refine h.modify r _ (c.handles.erase r) (fun q hq => ?_) (fun record hrecord => ?_) fun q hq => ?_
  · exact h.alive q (List.mem_of_mem_erase hq)
  · rw [List.count_erase_self, ← h.counted_record hrecord]
  · exact List.count_erase_of_ne hq

/-- **The purge.** -/
theorem Inv.purge (h : Inv c) (hcareful : ∀ t r, (c.calls t).Finds r → ¬ c.factory.Dead r) :
    Inv { c with factory := c.factory.purgeRecords } := by
  have hheap := h.wellFormed.heap_purge
  have hopen : ∀ r ∈ c.handles, ¬ c.factory.Dead r := by
    rintro r hr ⟨-, hzero⟩
    rw [h.counted r (h.alive r hr)] at hzero
    exact List.count_eq_zero.mp hzero hr
  refine ⟨h.wellFormed.purge, fun r hr => ?_, fun r hr => ?_, fun t r hr => ?_⟩
  · rw [hheap, if_neg (hopen r hr)]
    exact h.alive r hr
  · dsimp only at hr ⊢
    rw [hheap] at hr
    rw [refCounter, hheap]
    split_ifs at hr ⊢
    · cases hr
    · exact h.counted r hr
  · rw [hheap, if_neg (hcareful t r hr)]
    exact h.found t r hr

/-! ## One piece -/

variable {spaceUsage : UInt64 → UInt64 → Usage}

theorem Inv.goOn (h : Inv c) {t : Nat} {a : Answers} {c' : Shared}
    (hcareful : (c.calls t).Purges → ∀ t r, (c.calls t).Finds r → ¬ c.factory.Dead r)
    (hstep : Cache.goOn spaceUsage c t a (c.calls t) = some c') : Inv c' := by
  have hnone : ∀ {f : Factory} {call : Call}, (∀ r, ¬ call.Finds r) →
      ∀ r, call.Finds r → (f.heap r).isSome := fun hcall r hr => absurd hr (hcall r)
  have hfound := h.found t
  cases hcall : c.calls t with
  | idle =>
    rw [hcall] at hstep
    cases hstep
  | purges filename =>
    rw [hcall] at hstep hcareful
    obtain rfl := Option.some.inj hstep
    exact (h.purge (hcareful trivial)).put t (hnone fun r => id) _ _
  | looksUp filename =>
    rw [hcall] at hstep
    dsimp only [Cache.goOn] at hstep
    split at hstep
    · rename_i r hget
      obtain rfl := Option.some.inj hstep
      refine h.put t (fun q hq => ?_) _ _
      obtain rfl : r = q := hq
      exact h.wellFormed.alive r (Factory.mem_held_of_get hget)
    · obtain rfl := Option.some.inj hstep
      exact h.put t (hnone fun r => id) _ _
  | waits filename r =>
    rw [hcall] at hstep hfound
    dsimp only [Cache.goOn] at hstep
    split_ifs at hstep
    obtain rfl := Option.some.inj hstep
    exact @Inv.put c h t (.checks filename r) hfound _ _
  | checks filename r =>
    rw [hcall] at hstep hfound
    dsimp only [Cache.goOn] at hstep
    have hrevalidated := h.revalidate r a
    split_ifs at hstep
    · obtain rfl := Option.some.inj hstep
      exact hrevalidated.put t (hnone fun r => id) _ _
    · obtain rfl := Option.some.inj hstep
      refine hrevalidated.put t (fun q hq => ?_) _ _
      have hcalls := hrevalidated.found t q
      dsimp only at hcalls
      rw [hcall] at hcalls
      exact hcalls hq
  | takes r =>
    rw [hcall] at hstep hfound
    obtain rfl := Option.some.inj hstep
    exact (h.addRef (hfound r rfl)).put t (hnone fun r => id) _ _
  | opensFile filename =>
    rw [hcall] at hstep
    dsimp only [Cache.goOn] at hstep
    split at hstep
    · obtain rfl := Option.some.inj hstep
      exact h.put t (hnone fun r => id) _ _
    · split_ifs at hstep
      · obtain rfl := Option.some.inj hstep
        exact h.put t (hnone fun r => id) _ _
      · obtain rfl := Option.some.inj hstep
        refine (h.insert filename _ a.ticks).put t (fun q hq => ?_) _ _
        obtain rfl : c.factory.next = q := hq
        dsimp only
        rw [Factory.heap_insert_next]
        rfl
  | nulls r =>
    rw [hcall] at hstep
    dsimp only [Cache.goOn] at hstep
    split_ifs at hstep
    · obtain rfl := Option.some.inj hstep
      exact h.put t (hnone fun r => id) _ _
    · split at hstep
      · cases hstep
      · split at hstep
        · obtain rfl := Option.some.inj hstep
          exact h.put t (hnone fun r => id) _ _
        · obtain rfl := Option.some.inj hstep
          exact h.put t (hnone fun r => id) _ _
  | wants filename q usage =>
    rw [hcall] at hstep
    dsimp only [Cache.goOn] at hstep
    split_ifs at hstep
    obtain rfl := Option.some.inj hstep
    exact h.put t (hnone fun r => id) _ _
  | decides filename q usage =>
    rw [hcall] at hstep
    dsimp only [Cache.goOn] at hstep
    split_ifs at hstep
    · split at hstep
      · cases hstep
      · obtain rfl := Option.some.inj hstep
        exact (h.remove filename).put t (hnone fun r => id) _ _
    · obtain rfl := Option.some.inj hstep
      exact h.put t (hnone fun r => id) _ _
  | unlocks q =>
    rw [hcall] at hstep
    obtain rfl := Option.some.inj hstep
    exact h.put t (hnone fun r => id) _ _

theorem Inv.advance (h : Inv c) {i : Nat × Action} {c' : Shared}
    (hcareful : (c.calls i.1).Purges → ∀ t r, (c.calls t).Finds r → ¬ c.factory.Dead r)
    (hstep : Cache.advance spaceUsage c i.1 i.2 = some c') : Inv c' := by
  obtain ⟨t, action⟩ := i
  cases action with
  | «open» filename =>
    dsimp only [Cache.advance] at hstep
    split at hstep
    · split_ifs at hstep
      obtain rfl := Option.some.inj hstep
      exact @Inv.put c h t (.purges filename) (fun r hr => False.elim hr) _ _
    · cases hstep
  | close r =>
    dsimp only [Cache.advance] at hstep
    split at hstep
    · split_ifs at hstep
      obtain rfl := Option.some.inj hstep
      refine h.decRef.put t (fun q hq => ?_) _ _
      split_ifs at hq <;> exact False.elim hq
    · cases hstep
  | go a => exact h.goOn hcareful hstep

/-- No piece but the purge deletes anything, and it deletes what is dead. -/
theorem Inv.deleted (h : Inv c) {i : Nat × Action} {c' : Shared} (hpurges : (c.calls i.1).Purges)
    (hstep : Cache.advance spaceUsage c i.1 i.2 = some c') : ∀ r ∈ c.factory.buffersToRemove,
      r ∉ c.handles → c'.factory.heap r = none := by
  intro r hr hclosed
  obtain ⟨t, action⟩ := i
  dsimp only at hpurges hstep
  cases hcall : c.calls t with
  | purges filename =>
    cases action with
    | «open» _ =>
      dsimp only [Cache.advance] at hstep
      rw [hcall] at hstep
      cases hstep
    | close _ =>
      dsimp only [Cache.advance] at hstep
      rw [hcall] at hstep
      cases hstep
    | go a =>
      dsimp only [Cache.advance] at hstep
      rw [hcall] at hstep
      obtain rfl := Option.some.inj hstep
      have hdead : c.factory.Dead r := by
        refine ⟨hr, ?_⟩
        rw [h.counted r (h.wellFormed.alive r (Factory.mem_held_of_list hr))]
        exact List.count_eq_zero.mpr hclosed
      dsimp only
      rw [h.wellFormed.heap_purge, if_pos hdead]
  | _ =>
    rw [hcall] at hpurges
    exact hpurges.elim

/-! ## Runs -/

theorem threadStep_eq {i : Nat × Action} {o c' : Shared} (h : threadStep spaceUsage c i = some (o, c')) :
    o = c' ∧ advance spaceUsage c i.1 i.2 = some c' := by
  unfold threadStep at h
  obtain ⟨c'', hadvance, heq⟩ := Option.map_eq_some_iff.mp h
  obtain ⟨rfl, rfl⟩ := Prod.mk.inj heq
  exact ⟨rfl, hadvance⟩

theorem goOn_calls {t t' : Nat} {a : Answers} {call : Call} {c' : Shared} (ht : t' ≠ t)
    (h : goOn spaceUsage c t a call = some c') : c'.calls t' = c.calls t' := by
  have hput : ∀ call, (c.put t call).calls t' = c.calls t' := fun call => Function.update_of_ne ht _ _
  cases call <;> dsimp only [goOn] at h <;> (repeat' split at h) <;>
    first
    | (cases h; done)
    | (obtain rfl := Option.some.inj h; exact hput _)

theorem advance_calls {i : Nat × Action} {t' : Nat} {c' : Shared} (ht : t' ≠ i.1)
    (h : advance spaceUsage c i.1 i.2 = some c') : c'.calls t' = c.calls t' := by
  have hput : ∀ call, (c.put i.1 call).calls t' = c.calls t' := fun call => Function.update_of_ne ht _ _
  obtain ⟨t, action⟩ := i
  cases action with
  | «open» filename =>
    dsimp only [advance] at h
    split at h
    · split_ifs at h
      obtain rfl := Option.some.inj h
      exact hput _
    · cases h
  | close r =>
    dsimp only [advance] at h
    split at h
    · split_ifs at h
      obtain rfl := Option.some.inj h
      exact hput _
    · cases h
  | go a => exact goOn_calls ht h

theorem Call.Purges.not_finds {call : Call} (h : call.Purges) (r : Nat) : ¬ call.Finds r := by
  cases call <;> first | exact h.elim | exact id

/-- In a run of one thread no call overlaps with another one. -/
theorem careful_of_alone (size : UInt64) {steps : List (Nat × Action)} {t : Nat}
    (h : ∀ i ∈ steps, i.1 = t) : Throughout Careful spaceUsage size steps := by
  have halone : ∀ e ∈ run (threadStep spaceUsage) steps (start size), e.input.1 = t :=
    fun e he => h _ (input_mem_of_mem_run he)
  obtain ⟨-, hbefore⟩ := @run_invariant_of _ _ _ (threadStep spaceUsage)
    (fun c => ∀ t' ≠ t, c.calls t' = .idle) (fun e => e.input.1 = t)
    (fun c i o c' hidle hi hstep t' ht =>
      (advance_calls (by rwa [show i.1 = t from hi]) (threadStep_eq hstep).2).trans (hidle t' ht))
    steps (start size) (fun _ _ => rfl) halone
  intro e he hpurges t' r hfinds
  obtain ⟨hidle, -⟩ := hbefore e he
  by_cases ht : t' = t
  · rw [ht, ← halone e he] at hfinds
    exact absurd hfinds (hpurges.not_finds r)
  · rw [hidle t' ht] at hfinds
    exact hfinds.elim

/-! ## Two runs -/

def go (t : Nat) : Nat × Action := (t, .go (found 10))

/-- A thread opens a new file. -/
def openNew (t : Nat) (filename : String) : List (Nat × Action) :=
  [(t, .open (ascii filename)), go t, go t, go t, go t, go t]

/-- It closes the file, and finds the cache full. -/
def closeLast (t r : Nat) : List (Nat × Action) := [(t, .close r), go t, go t, go t, go t]

/-- While the last `CachedFile` of `a` is closed by one thread, another one finds the record; the record
goes to the removal list, and a third thread deletes it before the second has opened it. -/
def overlapping : List (Nat × Action) :=
  openNew 0 "a" ++ [(0, .close 0), go 0, go 0, (1, .open (ascii "a")), go 1, go 1, go 0, go 0, go 1,
    go 1, (2, .open (ascii "b")), go 2, go 1]

end MyServer.Cache
