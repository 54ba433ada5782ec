import MyServer.Bytes
import MyServer.Lib.Links
import MyServer.Lib.Safety

/-!
# How the filters of a chain hang together

`FiltersChain` (filters_chain.cpp) keeps the filters in a list, a pointer to
the first one, and in each filter a pointer to the stream it writes to. Filters
and streams are known by their addresses.
-/

namespace MyServer.Filters

/-- What a `Stream *` that is not `NULL` points at. -/
inductive Stream (F S : Type)
  | filter (f : F)
  | stream (s : S)
deriving DecidableEq

/-- `parent` is the field of the filter objects, those of other chains among them. `deleted` are the objects
that were deleted. -/
structure FiltersChain (F S : Type) where
  filters : List F
  firstFilter : Option F
  stream : Option (Stream F S)
  acceptDuplicates : Bool
  parent : F → Option (Stream F S)
  deleted : List F

/-- What `getHeader` gives when `addFilter` asks for it, `none` for an error, and whether the parent then fails
to write it. -/
structure Header where
  getHeader : Option Str
  fails : Bool

namespace FiltersChain

variable {F S : Type}

def pointer (f : F) : Option (Stream F S) := some (.filter f)

def new (parent : F → Option (Stream F S)) : FiltersChain F S where
  filters := []
  firstFilter := none
  stream := none
  acceptDuplicates := true
  parent
  deleted := []

/-- Where `write` and `read` go first. -/
def entry (c : FiltersChain F S) : Option (Stream F S) :=
  match c.firstFilter with
  | none => c.stream
  | some f => pointer f

/-- `firstFilter = f; filters.push_front (f)` -/
def pushFront (c : FiltersChain F S) (f : F) : FiltersChain F S :=
  { c with firstFilter := some f, filters := f :: c.filters }

def clearAllFilters (c : FiltersChain F S) : FiltersChain F S :=
  { c with deleted := c.deleted ++ c.filters, filters := [], firstFilter := none }

def setAcceptDuplicates (c : FiltersChain F S) (v : Bool) : FiltersChain F S := { c with acceptDuplicates := v }

variable [DecidableEq F]

def setParent (c : FiltersChain F S) (f : F) (p : Option (Stream F S)) : FiltersChain F S :=
  { c with parent := Function.update c.parent f p }

def setStream [DecidableEq S] (c : FiltersChain F S) (s : Option (Stream F S)) : FiltersChain F S :=
  let c' := c.filters.foldl (fun c' f => if c'.parent f = c.stream then c'.setParent f s else c') c
  { c' with stream := s }

def isFilterPresent (c : FiltersChain F S) (f : F) : Bool := f ∈ c.filters

/-- `none` is a call through the `NULL` pointer. -/
def addFilter (c : FiltersChain F S) (f : F) (sendData : Bool) (header : Header) : Option (Nat × FiltersChain F S) :=
  let c := c.setParent f c.entry
  if !c.acceptDuplicates && c.isFilterPresent f then some (0, c)
  else if sendData then
    match header.getHeader with
    | none => some (1, c)
    | some [] => some (0, c.pushFront f)
    | some (_ :: _) =>
      (c.parent f).map fun _ => (if header.fails then 1 else 0, c.pushFront f)
  else some (0, c.pushFront f)

def removeFilter (c : FiltersChain F S) (f : F) : FiltersChain F S :=
  let before := c.filters.takeWhile (· ≠ f)
  match c.filters.dropWhile (· ≠ f) with
  | [] => c
  | _ :: after =>
    match before.getLast? with
    | some prev => { c.setParent prev (c.parent f) with filters := before ++ after }
    | none => { c with firstFilter := after.head?, filters := after }

inductive Op (F S : Type)
  | addFilter (f : F) (sendData : Bool) (header : Header)
  | removeFilter (f : F)
  | setStream (s : Option (Stream F S))
  | clearAllFilters
  | setAcceptDuplicates (v : Bool)

def step [DecidableEq S] (c : FiltersChain F S) : Op F S → Option (FiltersChain F S)
  | .addFilter f sendData header => (c.addFilter f sendData header).map (·.2)
  | .removeFilter f => some (c.removeFilter f)
  | .setStream s => some (c.setStream s)
  | .clearAllFilters => some c.clearAllFilters
  | .setAcceptDuplicates v => some (c.setAcceptDuplicates v)

/-! ## The links -/

/-- A write enters at the first filter of the list, passes each filter once, in the order of the list, and
reaches the stream. -/
structure Linked (c : FiltersChain F S) : Prop where
  first : c.firstFilter = c.filters.head?
  route : Links.Route pointer c.parent c.entry c.filters c.stream
  once : c.filters.Nodup
  /-- The stream is behind the filters and none of them. -/
  outside : ∀ f ∈ c.filters, pointer f ≠ c.stream

omit [DecidableEq F] in
theorem linked_new (parent : F → Option (Stream F S)) : Linked (new parent) :=
  ⟨rfl, rfl, List.nodup_nil, by simp [new]⟩

omit [DecidableEq F] in
theorem entry_eq {c : FiltersChain F S} (hfirst : c.firstFilter = c.filters.head?) :
    c.entry = (c.filters.head?.map pointer).getD c.stream := by
  unfold entry
  rw [hfirst]
  cases c.filters.head? <;> rfl

@[simp] theorem setParent_filters (c : FiltersChain F S) (f : F) (p : Option (Stream F S)) :
    (c.setParent f p).filters = c.filters := rfl

@[simp] theorem setParent_parent (c : FiltersChain F S) (f : F) (p : Option (Stream F S)) :
    (c.setParent f p).parent = Function.update c.parent f p := rfl

/-- The loop of `setStream` over some filters, while the chain still has the stream `q`. -/
theorem foldl_setStream [DecidableEq S] (q s : Option (Stream F S)) (l : List F) (c : FiltersChain F S) :
    let c' := l.foldl (fun c' f => if c'.parent f = q then c'.setParent f s else c') c
    c'.filters = c.filters ∧ c'.firstFilter = c.firstFilter ∧ c'.deleted = c.deleted ∧
      ∀ f, c'.parent f = if f ∈ l ∧ c.parent f = q then s else c.parent f := by
  induction l generalizing c with
  | nil => simp
  | cons g l ih =>
    obtain ⟨hfilters, hfirst, hdeleted, hparent⟩ := ih (if c.parent g = q then c.setParent g s else c)
    refine ⟨hfilters.trans ?_, hfirst.trans ?_, hdeleted.trans ?_, fun f => (hparent f).trans ?_⟩
    · split_ifs <;> rfl
    · split_ifs <;> rfl
    · split_ifs <;> rfl
    · by_cases hfg : f = g
      · subst hfg
        by_cases hq : c.parent f = q <;> simp [hq]
      · by_cases hq : c.parent g = q <;> simp [hq, hfg]

/-! ## What keeps the links -/

theorem Linked.setStream [DecidableEq S] {c : FiltersChain F S} (hc : Linked c) {s : Option (Stream F S)}
    (hs : ∀ f ∈ c.filters, pointer f ≠ s) : Linked (c.setStream s) := by
  obtain ⟨hfilters, hfirst, -, hparent⟩ := foldl_setStream c.stream s c.filters c
  have hfilters' : (c.setStream s).filters = c.filters := hfilters
  have hfirst' : (c.setStream s).firstFilter = (c.setStream s).filters.head? := by
    rw [hfilters', ← hc.first]
    exact hfirst
  refine ⟨hfirst', ?_, hfilters'.symm ▸ hc.once, fun f hf => hs f (hfilters' ▸ hf)⟩
  have hentry : (c.setStream s).entry = if c.entry = c.stream then s else c.entry := by
    have houtside := hc.outside
    rw [entry_eq hfirst', entry_eq hc.first, hfilters']
    cases hl : c.filters with
    | nil => exact (if_pos rfl).symm
    | cons f l =>
      rw [hl] at houtside
      exact (if_neg (houtside f List.mem_cons_self)).symm
  rw [hfilters', hentry]
  refine (Links.route_congr fun f hf => ?_).mp (hc.route.redirect hc.outside)
  refine ((hparent f).trans ?_).symm
  simp [hf]

/-- The list at the first occurrence of the filter. -/
theorem split_at {l after : List F} {f g : F} (hdrop : l.dropWhile (· ≠ f) = g :: after) :
    l = l.takeWhile (· ≠ f) ++ f :: after := by
  have hg : g = f := by
    have hhead := List.head_dropWhile_not (fun x => decide (x ≠ f)) (by rw [hdrop]; exact List.cons_ne_nil g after)
    simp only [hdrop, List.head_cons] at hhead
    simpa using hhead
  have hsplit := List.takeWhile_append_dropWhile (p := (· ≠ f)) (l := l)
  rw [hdrop, hg] at hsplit
  exact hsplit.symm

/-- **The filter before it** takes over its parent, or the chain its successor. -/
theorem Linked.removeFilter {c : FiltersChain F S} (hc : Linked c) (f : F) : Linked (c.removeFilter f) := by
  unfold FiltersChain.removeFilter
  dsimp only
  cases hdrop : c.filters.dropWhile (· ≠ f) with
  | nil => exact hc
  | cons g after =>
    have hsplit := split_at hdrop
    generalize c.filters.takeWhile (· ≠ f) = before at hsplit
    obtain ⟨hfirst, hroute, honce, houtside⟩ := hc
    rw [hsplit] at hroute honce houtside
    dsimp only
    cases hlast : before.getLast? with
    | none =>
      obtain rfl := List.getLast?_eq_none_iff.mp hlast
      have hafter : Links.Route pointer c.parent (c.parent f) after c.stream := hroute.2
      refine ⟨rfl, ?_, (List.nodup_cons.mp honce).2, fun d hd => houtside d (List.mem_cons_of_mem f hd)⟩
      rw [entry_eq rfl, ← hafter.start]
      exact hafter
    | some prev =>
      obtain ⟨front, rfl⟩ := List.getLast?_eq_some_iff.mp hlast
      rw [List.append_assoc, List.singleton_append] at hroute honce houtside
      have hfirst' : c.firstFilter = (front ++ [prev] ++ after).head? := by
        rw [hfirst, hsplit, List.append_assoc, List.append_assoc]
        cases front <;> rfl
      have hprev : prev ∉ front ++ f :: after := by
        rw [List.nodup_middle, List.nodup_cons] at honce
        exact honce.1
      refine ⟨hfirst', ?_, ?_, fun d hd => houtside d ?_⟩
      · change Links.Route pointer (Function.update c.parent prev (c.parent f)) c.entry (front ++ [prev] ++ after)
          c.stream
        rw [List.append_assoc, List.singleton_append]
        exact hroute.erase hprev
      · change (front ++ [prev] ++ after).Nodup
        rw [List.append_assoc, List.singleton_append]
        exact honce.sublist (by simp)
      · change d ∈ front ++ [prev] ++ after at hd
        simp only [List.mem_append, List.mem_cons, List.not_mem_nil, or_false] at hd ⊢
        tauto

omit [DecidableEq F] in
theorem Linked.clearAllFilters {c : FiltersChain F S} : Linked c.clearAllFilters :=
  ⟨rfl, rfl, List.nodup_nil, by simp [FiltersChain.clearAllFilters]⟩

theorem Linked.setParent {c : FiltersChain F S} (hc : Linked c) {f : F} (hf : f ∉ c.filters)
    (p : Option (Stream F S)) : Linked (c.setParent f p) := by
  refine ⟨hc.first, ?_, hc.once, hc.outside⟩
  exact (Links.route_update hf).mpr hc.route

theorem Linked.pushFront {c : FiltersChain F S} (hc : Linked c) {f : F} (hf : f ∉ c.filters)
    (hs : pointer f ≠ c.stream) : Linked ((c.setParent f c.entry).pushFront f) := by
  refine ⟨rfl, ⟨rfl, ?_⟩, List.nodup_cons.mpr ⟨hf, hc.once⟩, ?_⟩
  · change Links.Route pointer (Function.update c.parent f c.entry) (Function.update c.parent f c.entry f) c.filters
      c.stream
    rw [Function.update_self]
    exact (Links.route_update hf).mpr hc.route
  · exact List.forall_mem_cons.mpr ⟨hs, hc.outside⟩

/-! ## What breaks them -/

/-- The filter is not in the chain, and does not get in where the stream is the filter itself; nor is the new
stream a filter of the chain. -/
def Proper (c : FiltersChain F S) : Op F S → Prop
  | .addFilter f sendData header =>
    f ∉ c.filters ∧ (pointer f = c.stream → sendData = true ∧ header.getHeader = none)
  | .setStream s => ∀ f ∈ c.filters, pointer f ≠ s
  | _ => True

/-- What `addFilter` leaves: the filter set on the others, and in front of them unless it was refused. -/
theorem addFilter_cases {c c' : FiltersChain F S} {f : F} {sendData : Bool} {header : Header} {n : Nat}
    (hadd : c.addFilter f sendData header = some (n, c')) :
    c' = c.setParent f c.entry ∧ (c.acceptDuplicates = false ∧ f ∈ c.filters ∨
        sendData = true ∧ header.getHeader = none) ∨
      c' = (c.setParent f c.entry).pushFront f ∧ ¬ (sendData = true ∧ header.getHeader = none) := by
  unfold addFilter at hadd
  dsimp only at hadd
  split at hadd
  · rename_i hdup
    cases hadd
    rw [Bool.and_eq_true, Bool.not_eq_true'] at hdup
    exact Or.inl ⟨rfl, Or.inl ⟨hdup.1, of_decide_eq_true hdup.2⟩⟩
  · split at hadd
    · rename_i hsend
      split at hadd
      · rename_i hheader
        cases hadd
        exact Or.inl ⟨rfl, Or.inr ⟨hsend, hheader⟩⟩
      · rename_i hheader
        cases hadd
        exact Or.inr ⟨rfl, by simp [hheader]⟩
      · rename_i hheader
        obtain ⟨p, -, heq⟩ := Option.map_eq_some_iff.mp hadd
        cases heq
        exact Or.inr ⟨rfl, by simp [hheader]⟩
    · rename_i hsend
      cases hadd
      exact Or.inr ⟨rfl, by simp [hsend]⟩

theorem Linked.addFilter {c c' : FiltersChain F S} (hc : Linked c) {f : F} {sendData : Bool} {header : Header}
    {n : Nat} (hf : f ∉ c.filters) (hs : pointer f = c.stream → sendData = true ∧ header.getHeader = none)
    (hadd : c.addFilter f sendData header = some (n, c')) : Linked c' := by
  rcases addFilter_cases hadd with ⟨rfl, -⟩ | ⟨rfl, hsent⟩
  · exact hc.setParent hf _
  · exact hc.pushFront hf fun heq => hsent (hs heq)

section Runs

variable [DecidableEq S]

theorem Linked.step {c c' : FiltersChain F S} (hc : Linked c) {op : Op F S} (hop : Proper c op)
    (hstep : c.step op = some c') : Linked c' := by
  cases op with
  | addFilter f sendData header =>
    obtain ⟨⟨n, c₁⟩, hadd, rfl⟩ := Option.map_eq_some_iff.mp hstep
    exact hc.addFilter hop.1 hop.2 hadd
  | removeFilter f =>
    cases hstep
    exact hc.removeFilter f
  | setStream s =>
    cases hstep
    exact hc.setStream hop
  | clearAllFilters =>
    cases hstep
    exact Linked.clearAllFilters
  | setAcceptDuplicates v =>
    cases hstep
    exact ⟨hc.first, hc.route, hc.once, hc.outside⟩

omit [DecidableEq S] in
/-- A filter that is in the chain is set on the first one, which is itself or one before it. -/
theorem Linked.not_setParent {c : FiltersChain F S} (hc : Linked c) {f : F} (hf : f ∈ c.filters) :
    ¬ Linked (c.setParent f c.entry) := by
  intro hset
  obtain ⟨l, r, hl⟩ := List.append_of_mem hf
  have hroute := hset.route
  have honce := hc.once
  have houtside := hc.outside
  have hentry := entry_eq hc.first
  rw [setParent_filters, setParent_parent, hl, Links.route_append] at hroute
  obtain ⟨p, -, -, hroute⟩ := hroute
  rw [Function.update_self] at hroute
  -- The filter points at the head of the list, and should at what comes after it.
  have hnext := hroute.start
  rw [hentry, hl] at hnext
  rw [hl] at honce houtside
  obtain ⟨d, hd, hmem⟩ : ∃ d, (l ++ f :: r).head? = some d ∧ (d ∈ l ∨ d = f) := by
    cases l with
    | nil => exact ⟨f, rfl, Or.inr rfl⟩
    | cons e l => exact ⟨e, rfl, Or.inl List.mem_cons_self⟩
  rw [hd] at hnext
  have hdmem : d ∈ l ++ f :: r := by
    rcases hmem with hmem | rfl
    · exact List.mem_append_left _ hmem
    · exact List.mem_append_right _ List.mem_cons_self
  cases r with
  | nil => exact houtside d hdmem hnext
  | cons g r =>
    have hdg : d = g := by
      have : (pointer d : Option (Stream F S)) = pointer g := hnext
      simpa [pointer] using this
    subst hdg
    rw [List.nodup_append, List.nodup_cons] at honce
    rcases hmem with hmem | rfl
    · exact honce.2.2 d hmem d (by simp) rfl
    · exact honce.2.1.1 List.mem_cons_self

omit [DecidableEq S] in
/-- The call comes back, but for a header to nowhere. -/
theorem addFilter_isSome {c : FiltersChain F S} {f : F} (hentry : c.entry ≠ none) (sendData : Bool)
    (header : Header) : ∃ n c', c.addFilter f sendData header = some (n, c') := by
  obtain ⟨p, hp⟩ := Option.ne_none_iff_exists'.mp hentry
  have hparent : (c.setParent f c.entry).parent f = some p := by
    rw [setParent_parent, Function.update_self, hp]
  unfold addFilter
  dsimp only
  rw [hparent]
  split
  · exact ⟨_, _, rfl⟩
  · split
    · split <;> exact ⟨_, _, rfl⟩
    · exact ⟨_, _, rfl⟩

theorem proper_of_linked {c : FiltersChain F S} (hc : Linked c) {op : Op F S}
    (h : ∀ c', c.step op = some c' → Linked c') : Proper c op := by
  cases op with
  | addFilter f sendData header =>
    have hlinked : ∀ n c', c.addFilter f sendData header = some (n, c') → Linked c' := by
      intro n c' hadd
      refine h c' ?_
      rw [step, hadd]
      rfl
    refine ⟨fun hf => ?_, fun hs => ?_⟩
    · have hentry : c.entry ≠ none := by
        rw [entry_eq hc.first, List.head?_eq_some_head (List.ne_nil_of_mem hf)]
        simp [pointer]
      obtain ⟨n, c', hadd⟩ := addFilter_isSome (f := f) hentry sendData header
      have hlinked := hlinked n c' hadd
      rcases addFilter_cases hadd with ⟨rfl, -⟩ | ⟨rfl, -⟩
      · exact hc.not_setParent hf hlinked
      · exact (List.nodup_cons.mp hlinked.once).1 hf
    · by_contra hsent
      have hentry : c.entry ≠ none := by
        unfold entry
        rw [← hs]
        cases c.firstFilter <;> simp [pointer]
      obtain ⟨n, c', hadd⟩ := addFilter_isSome (f := f) hentry sendData header
      have hlinked := hlinked n c' hadd
      rcases addFilter_cases hadd with ⟨rfl, ⟨-, hf⟩ | hrefused⟩ | ⟨rfl, -⟩
      · exact hc.outside f hf hs
      · exact hsent hrefused
      · exact hlinked.outside f List.mem_cons_self hs
  | setStream s =>
    intro f hf
    have hlinked := h (c.setStream s) rfl
    have hfilters : (c.setStream s).filters = c.filters := (foldl_setStream c.stream s c.filters c).1
    exact hlinked.outside f (hfilters ▸ hf)
  | removeFilter f => trivial
  | clearAllFilters => trivial
  | setAcceptDuplicates v => trivial

/-- **The links hold** as long as no filter is added that is in the chain, and the stream is none of its
filters. -/
theorem links_iff (parent : F → Option (Stream F S)) (ops : List (Op F S)) :
    Safety.Throughout step Linked ops (new parent) ↔ Safety.Along step Proper ops (new parent) := by
  constructor
  · exact Safety.along_of_throughout (fun _ _ _ hc hop hstep => hc.step hop hstep)
      (fun _ _ hc => proper_of_linked hc) (linked_new parent)
  · exact Safety.throughout_of_invariant (fun _ _ _ hc hop hstep => hc.step hop hstep)
      (fun _ hc => hc) (linked_new parent)

/-- The same filter twice, in a chain that accepts no duplicates: it becomes its own parent. -/
theorem not_links : ¬ Safety.Throughout (@step Nat Nat _ _) Linked
    [.setStream (some (.stream 0)), .addFilter 1 false ⟨some [], false⟩, .setAcceptDuplicates false,
      .addFilter 1 false ⟨some [], false⟩] (new fun _ => none) := by
  intro h
  have hlast := h.last rfl
  have hroute := hlast.route
  revert hroute
  decide

end Runs

end FiltersChain

end MyServer.Filters
