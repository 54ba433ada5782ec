import MyServer.Filter.Linkage

/-!
# Chains made from names

`FiltersFactory::chain` (filters_factory.cpp) makes one filter after the other
and adds it to the chain. It does not look at what `addFilter` answers.
-/

namespace MyServer.Filters

/-- A filter object that a factory has made. -/
structure Filter (F : Type) where
  object : F
  modifyData : Bool
  header : Header

/-- The tables of factories. Each call is counted: what a factory makes is another object each time. -/
structure FiltersFactory (F : Type) where
  staticFilters : Str → Option (Nat → Option (Filter F))
  dynamicFilters : Str → Option (Nat → Option (Filter F))

/-- `chain` comes back with a return value. `made` are the objects that `getFilter` made. -/
structure Built (F S : Type) where
  ret : Nat
  chain : FiltersChain F S
  made : List F

namespace FiltersFactory

variable {F S : Type}

def getFilter (fac : FiltersFactory F) (n : Nat) (name : Str) : Option (Filter F) :=
  match fac.staticFilters name with
  | some staticFactory => staticFactory n
  | none => (fac.dynamicFilters name).bind fun dynamicFactory => dynamicFactory n

/-- Whether `accepted`, if it is given, has the name in it. -/
def accepts (accepted : Option Str) (name : Str) : Bool :=
  match accepted with
  | none => true
  | some a => name <:+: a

variable [DecidableEq F]

/-- The loop of `chain`, after `n` calls of `getFilter`. `none` is a header sent through `NULL`. -/
def chainLoop (fac : FiltersFactory F) (onlyNotModifiers : Bool) (accepted : Option Str) :
    Nat → List Str → FiltersChain F S → List F → Option (Built F S)
  | _, [], c, made => some ⟨0, c, made⟩
  | n, name :: names, c, made =>
    if !accepts accepted name then chainLoop fac onlyNotModifiers accepted n names c made
    else
      match fac.getFilter n (cstr name) with
      | none => some ⟨1, c.clearAllFilters, made⟩
      | some f =>
        if onlyNotModifiers && f.modifyData then
          some ⟨1, { c with deleted := c.deleted ++ [f.object] }.clearAllFilters, made ++ [f.object]⟩
        else
          (c.addFilter f.object true f.header).bind fun r =>
            chainLoop fac onlyNotModifiers accepted (n + 1) names r.2 (made ++ [f.object])

def chain [DecidableEq S] (fac : FiltersFactory F) (c : FiltersChain F S) (l : List Str)
    (out : Option (Stream F S)) (onlyNotModifiers : Bool) (accepted : Option Str) : Option (Built F S) :=
  chainLoop fac onlyNotModifiers accepted 0 l (c.setStream out) []

/-! ## The filters found -/

omit [DecidableEq F] in
/-- What `getFilter` gives for each of the accepted names. -/
def found (fac : FiltersFactory F) (accepted : Option Str) (n : Nat) (names : List Str) : List (Option (Filter F)) :=
  ((names.filter (accepts accepted)).zipIdx n).map fun call => fac.getFilter call.2 (cstr call.1)

/-- The loop, over what was found. -/
def build (onlyNotModifiers : Bool) :
    List (Option (Filter F)) → FiltersChain F S → List F → Option (Built F S)
  | [], c, made => some ⟨0, c, made⟩
  | none :: _, c, made => some ⟨1, c.clearAllFilters, made⟩
  | some f :: found, c, made =>
    if onlyNotModifiers && f.modifyData then
      some ⟨1, { c with deleted := c.deleted ++ [f.object] }.clearAllFilters, made ++ [f.object]⟩
    else
      (c.addFilter f.object true f.header).bind fun r => build onlyNotModifiers found r.2 (made ++ [f.object])

theorem chainLoop_eq (fac : FiltersFactory F) (onlyNotModifiers : Bool) (accepted : Option Str) (n : Nat)
    (names : List Str) (c : FiltersChain F S) (made : List F) :
    chainLoop fac onlyNotModifiers accepted n names c made =
      build onlyNotModifiers (fac.found accepted n names) c made := by
  induction names generalizing n c made with
  | nil => rfl
  | cons name names ih =>
    unfold chainLoop
    by_cases haccepts : accepts accepted name = true
    · have hfound : fac.found accepted n (name :: names) =
          fac.getFilter n (cstr name) :: fac.found accepted (n + 1) names := by
        simp [found, haccepts]
      rw [hfound, haccepts]
      cases fac.getFilter n (cstr name) with
      | none => rfl
      | some f => simp [build, ih]
    · have hfound : fac.found accepted n (name :: names) = fac.found accepted n names := by
        simp [found, haccepts]
      rw [hfound, ← ih]
      simp [haccepts]

/-! ## What is promised -/

/-- `addFilter` adds it and answers `0`. -/
def Added (f : Filter F) : Prop :=
  ∃ header, f.header.getHeader = some header ∧ (header = [] ∨ f.header.fails = false)

/-- The loop goes on behind this one. -/
def goesOn (onlyNotModifiers : Bool) : Option (Filter F) → Bool
  | none => false
  | some f => !(onlyNotModifiers && f.modifyData)

/-- **All or nothing**, for what was found for the names, over a chain that had the filters `old`. -/
structure AllOrNothing (onlyNotModifiers : Bool) (old : List F) (out : Stream F S)
    (found : List (Option (Filter F))) (b : Built F S) : Prop where
  success : b.ret = 0 → ∃ filters : List (Filter F), found = filters.map some ∧
    (∀ f ∈ filters, Added f ∧ (onlyNotModifiers = true → f.modifyData = false)) ∧
    b.chain.filters = (filters.map Filter.object).reverse ++ old ∧ b.chain.Linked ∧
    b.chain.stream = some out ∧ ∀ f ∈ b.made, f ∈ b.chain.filters
  failure : b.ret ≠ 0 → b.chain.filters = [] ∧ b.chain.firstFilter = none ∧ ∀ f ∈ b.made, f ∈ b.chain.deleted

/-- Every header that is asked for is there; and if no name ends the loop every one is written. -/
def Sent (onlyNotModifiers : Bool) (found : List (Option (Filter F))) : Prop :=
  (∀ f, some f ∈ found.takeWhile (goesOn onlyNotModifiers) → f.header.getHeader ≠ none) ∧
    (found.all (goesOn onlyNotModifiers) = true → ∀ f, some f ∈ found → Added f)

/-- The factories make new objects, known to nobody. -/
structure Fresh (c : FiltersChain F S) (out : Stream F S) (filters : List (Filter F)) : Prop where
  nodup : (filters.map Filter.object).Nodup
  notMem : ∀ f ∈ filters, f.object ∉ c.filters ∧ f.object ∉ c.deleted
  outside : ∀ f ∈ filters, Stream.filter f.object ≠ out

/-! ## The loop up to where it ends -/

theorem add_fresh {c : FiltersChain F S} (hc : c.Linked) {out : Stream F S} (hstream : c.stream = some out)
    {f : Filter F} (hf : f.object ∉ c.filters) (hs : Stream.filter f.object ≠ out) :
    ∃ n c', c.addFilter f.object true f.header = some (n, c') ∧ c'.Linked ∧ c'.stream = some out ∧
      c'.deleted = c.deleted ∧
      c'.filters = if f.header.getHeader.isSome then f.object :: c.filters else c.filters := by
  have hentry : c.entry ≠ none := by
    unfold FiltersChain.entry
    rw [hstream]
    cases c.firstFilter <;> simp [FiltersChain.pointer]
  have hout : FiltersChain.pointer f.object ≠ c.stream := by
    rw [hstream]
    exact fun heq => hs (Option.some.inj heq)
  obtain ⟨n, c', hadd⟩ := FiltersChain.addFilter_isSome (f := f.object) hentry true f.header
  refine ⟨n, c', hadd, hc.addFilter hf (fun heq => absurd heq hout) hadd, ?_⟩
  rcases FiltersChain.addFilter_cases hadd with ⟨rfl, ⟨-, hin⟩ | ⟨-, hheader⟩⟩ | ⟨rfl, hheader⟩
  · exact absurd hin hf
  · exact ⟨hstream, rfl, by simp [hheader]⟩
  · refine ⟨hstream, rfl, ?_⟩
    have hsome : f.header.getHeader.isSome = true := by
      rw [Option.isSome_iff_ne_none]
      exact fun hnone => hheader ⟨rfl, hnone⟩
    rw [if_pos hsome]
    rfl

omit [DecidableEq F] in
theorem Fresh.tail {c c' : FiltersChain F S} {out : Stream F S} {f : Filter F} {fs : List (Filter F)}
    (h : Fresh c out (f :: fs)) (hdeleted : c'.deleted = c.deleted)
    (hfilters : ∀ g ∈ c'.filters, g = f.object ∨ g ∈ c.filters) : Fresh c' out fs := by
  have hnodup := h.nodup
  rw [List.map_cons, List.nodup_cons] at hnodup
  refine ⟨hnodup.2, fun g hg => ?_, fun g hg => h.outside g (List.mem_cons_of_mem f hg)⟩
  obtain ⟨hgc, hgd⟩ := h.notMem g (List.mem_cons_of_mem f hg)
  refine ⟨fun hmem => ?_, hdeleted ▸ hgd⟩
  rcases hfilters _ hmem with heq | hmem
  · exact hnodup.1 (heq ▸ List.mem_map_of_mem hg)
  · exact hgc hmem

/-- **As long as the loop goes on** each filter whose header is there is put in front. -/
theorem build_fine {onlyNotModifiers : Bool} {out : Stream F S} {fs : List (Filter F)}
    (hfs : ∀ f ∈ fs, goesOn onlyNotModifiers (some f) = true) (rest : List (Option (Filter F)))
    {c : FiltersChain F S} (hc : c.Linked) (hstream : c.stream = some out) (hfresh : Fresh c out fs)
    (made : List F) :
    ∃ c', build onlyNotModifiers (fs.map some ++ rest) c made =
        build onlyNotModifiers rest c' (made ++ fs.map Filter.object) ∧ c'.Linked ∧ c'.stream = some out ∧
      c'.deleted = c.deleted ∧
      c'.filters = ((fs.filter (·.header.getHeader.isSome)).map Filter.object).reverse ++ c.filters := by
  induction fs generalizing c made with
  | nil => exact ⟨c, by simp, hc, hstream, rfl, rfl⟩
  | cons f fs ih =>
    obtain ⟨hf, hfs⟩ := List.forall_mem_cons.mp hfs
    obtain ⟨n, c₁, hadd, hc₁, hstream₁, hdeleted₁, hfilters₁⟩ :=
      add_fresh hc hstream (hfresh.notMem f List.mem_cons_self).1 (hfresh.outside f List.mem_cons_self)
    have hfresh₁ : Fresh c₁ out fs := by
      refine hfresh.tail hdeleted₁ fun g hg => ?_
      rw [hfilters₁] at hg
      split_ifs at hg
      · exact List.mem_cons.mp hg
      · exact Or.inr hg
    obtain ⟨c', hbuild, hc', hstream', hdeleted', hfilters'⟩ := ih hfs hc₁ hstream₁ hfresh₁ (made ++ [f.object])
    refine ⟨c', ?_, hc', hstream', hdeleted'.trans hdeleted₁, ?_⟩
    · have hstop : (onlyNotModifiers && f.modifyData) = false := by
        rwa [goesOn, Bool.not_eq_true'] at hf
      rw [List.map_cons, List.cons_append, build, hstop, hadd, if_neg Bool.false_ne_true, Option.bind_some, hbuild]
      simp
    · rw [hfilters', hfilters₁]
      by_cases hsome : f.header.getHeader.isSome = true <;> simp [hsome]

omit [DecidableEq F] in
/-- Where the loop ends. -/
theorem split_found (onlyNotModifiers : Bool) (found : List (Option (Filter F))) :
    ∃ (fs : List (Filter F)) (rest : List (Option (Filter F))), found = fs.map some ++ rest ∧
      (∀ f ∈ fs, goesOn onlyNotModifiers (some f) = true) ∧
      (rest = [] ∨ ∃ o rest', rest = o :: rest' ∧ goesOn onlyNotModifiers o = false) := by
  induction found with
  | nil => exact ⟨[], [], rfl, by simp, Or.inl rfl⟩
  | cons o found ih =>
    obtain ⟨fs, rest, rfl, hfs, hrest⟩ := ih
    by_cases ho : goesOn onlyNotModifiers o = true
    · cases o with
      | none => cases ho
      | some f => exact ⟨f :: fs, rest, rfl, List.forall_mem_cons.mpr ⟨ho, hfs⟩, hrest⟩
    · exact ⟨[], o :: _, rfl, by simp, Or.inr ⟨o, _, rfl, by simpa using ho⟩⟩

omit [DecidableEq F] in
theorem Fresh.front {c : FiltersChain F S} {out : Stream F S} {fs gs : List (Filter F)}
    (h : Fresh c out (fs ++ gs)) : Fresh c out fs where
  nodup := (List.map_append ▸ h.nodup).of_append_left
  notMem f hf := h.notMem f (List.mem_append_left gs hf)
  outside f hf := h.outside f (List.mem_append_left gs hf)

omit [DecidableEq F] in
/-- A filter whose header is missing is not in the chain, nor is any filter with its address. -/
theorem Fresh.header_of_mem {c : FiltersChain F S} {out : Stream F S} {fs : List (Filter F)}
    (h : Fresh c out fs) {f : Filter F} (hf : f ∈ fs)
    (hmem : f.object ∈ ((fs.filter (·.header.getHeader.isSome)).map Filter.object).reverse ++ c.filters) :
    f.header.getHeader ≠ none := by
  rcases List.mem_append.mp hmem with hmem | hmem
  · obtain ⟨g, hg, hgf⟩ := List.mem_map.mp (List.mem_reverse.mp hmem)
    obtain ⟨hgmem, hsome⟩ := List.mem_filter.mp hg
    obtain rfl := List.inj_on_of_nodup_map h.nodup hgmem hf hgf
    exact Option.isSome_iff_ne_none.mp hsome
  · exact absurd hmem (h.notMem f hf).1

omit [DecidableEq F] in
theorem Added.header {f : Filter F} (h : Added f) : f.header.getHeader ≠ none := by
  obtain ⟨header, hheader, -⟩ := h
  rw [hheader]
  exact Option.some_ne_none header

omit [DecidableEq F] in
theorem sent_fine {onlyNotModifiers : Bool} {fs : List (Filter F)}
    (hfs : ∀ f ∈ fs, goesOn onlyNotModifiers (some f) = true) :
    Sent onlyNotModifiers (fs.map some) ↔ ∀ f ∈ fs, Added f := by
  have hall : (fs.map some).all (goesOn onlyNotModifiers) = true := by simpa using hfs
  have htake : (fs.map some).takeWhile (goesOn onlyNotModifiers) = fs.map some :=
    List.takeWhile_eq_self_iff.mpr (by simpa using hfs)
  unfold Sent
  rw [htake, imp_iff_right hall]
  simp only [List.mem_map_of_injective (Option.some_injective _)]
  constructor
  · exact fun h => h.2
  · exact fun h => ⟨fun f hf => (h f hf).header, h⟩

omit [DecidableEq F] in
theorem sent_stopped {onlyNotModifiers : Bool} {fs : List (Filter F)} {o : Option (Filter F)}
    {rest : List (Option (Filter F))} (hfs : ∀ f ∈ fs, goesOn onlyNotModifiers (some f) = true)
    (ho : goesOn onlyNotModifiers o = false) :
    Sent onlyNotModifiers (fs.map some ++ o :: rest) ↔ ∀ f ∈ fs, f.header.getHeader ≠ none := by
  have htake : (fs.map some ++ o :: rest).takeWhile (goesOn onlyNotModifiers) = fs.map some := by
    rw [List.takeWhile_append_of_pos (by simpa using hfs), List.takeWhile_cons, ho]
    simp
  unfold Sent
  rw [htake]
  simp only [List.mem_map_of_injective (Option.some_injective _)]
  constructor
  · exact fun h => h.1
  · exact fun h => ⟨h, fun hall => by simp [ho] at hall⟩

/-! ## All or nothing -/

omit [DecidableEq F] in
/-- The loop has come to the end of the list. -/
theorem allOrNothing_fine {onlyNotModifiers : Bool} {old : List F} {c' : FiltersChain F S} {out : Stream F S}
    {fs : List (Filter F)} (hfs : ∀ f ∈ fs, goesOn onlyNotModifiers (some f) = true) (hc' : c'.Linked)
    (hstream : c'.stream = some out)
    (hfilters : c'.filters = ((fs.filter (·.header.getHeader.isSome)).map Filter.object).reverse ++ old) :
    AllOrNothing onlyNotModifiers old out (fs.map some) ⟨0, c', fs.map Filter.object⟩ ↔ ∀ f ∈ fs, Added f := by
  constructor
  · intro h
    obtain ⟨filters, heq, hadded, -⟩ := h.success rfl
    obtain rfl := (Option.some_injective _).list_map heq
    exact fun f hf => (hadded f hf).1
  · intro hadded
    have hall : fs.filter (·.header.getHeader.isSome) = fs :=
      List.filter_eq_self.mpr fun f hf => Option.isSome_iff_ne_none.mpr (hadded f hf).header
    rw [hall] at hfilters
    refine ⟨fun _ => ⟨fs, rfl, fun f hf => ⟨hadded f hf, fun honly => ?_⟩, hfilters, hc', hstream, fun f hf => ?_⟩,
      fun hne => absurd rfl hne⟩
    · simpa [goesOn, honly] using hfs f hf
    · change f ∈ c'.filters
      rw [hfilters]
      exact List.mem_append_left _ (List.mem_reverse.mpr hf)

omit [DecidableEq F] in
/-- The loop has ended at a name, and the filter made for it is deleted with the others. -/
theorem allOrNothing_stopped {onlyNotModifiers : Bool} {c c' : FiltersChain F S} {out : Stream F S}
    {fs : List (Filter F)} {found : List (Option (Filter F))} {old last : List F}
    (hfresh : Fresh c out fs) (hlast : ∀ f ∈ fs, f.object ∉ last) (hdeleted : c'.deleted = c.deleted)
    (hfilters : c'.filters = ((fs.filter (·.header.getHeader.isSome)).map Filter.object).reverse ++ c.filters) :
    AllOrNothing onlyNotModifiers old out found
        ⟨1, { c' with deleted := c'.deleted ++ last }.clearAllFilters, fs.map Filter.object ++ last⟩ ↔
      ∀ f ∈ fs, f.header.getHeader ≠ none := by
  have hmem : ∀ x, x ∈ ({ c' with deleted := c'.deleted ++ last } : FiltersChain F S).clearAllFilters.deleted ↔
      (x ∈ c.deleted ∨ x ∈ last) ∨ x ∈ c'.filters := by
    intro x
    change x ∈ c'.deleted ++ last ++ c'.filters ↔ _
    rw [hdeleted, List.mem_append, List.mem_append]
  constructor
  · intro h f hf
    have hdel := (h.failure (by simp)).2.2 f.object (List.mem_append_left _ (List.mem_map_of_mem hf))
    rcases (hmem _).mp hdel with (hdel | hdel) | hdel
    · exact absurd hdel (hfresh.notMem f hf).2
    · exact absurd hdel (hlast f hf)
    · exact hfresh.header_of_mem hf (hfilters ▸ hdel)
  · intro hheader
    refine ⟨fun hzero => absurd hzero one_ne_zero, fun _ => ⟨rfl, rfl, fun x hx => (hmem x).mpr ?_⟩⟩
    rcases List.mem_append.mp hx with hx | hx
    · obtain ⟨f, hf, rfl⟩ := List.mem_map.mp hx
      right
      rw [hfilters]
      refine List.mem_append_left _ (List.mem_reverse.mpr (List.mem_map_of_mem ?_))
      exact List.mem_filter.mpr ⟨hf, Option.isSome_iff_ne_none.mpr (hheader f hf)⟩
    · exact Or.inl (Or.inr hx)

theorem build_iff {onlyNotModifiers : Bool} {found : List (Option (Filter F))} {c : FiltersChain F S}
    {out : Stream F S} (hc : c.Linked) (hstream : c.stream = some out) (hfresh : Fresh c out (found.filterMap id)) :
    (∃ b, build onlyNotModifiers found c [] = some b ∧ AllOrNothing onlyNotModifiers c.filters out found b) ↔
      Sent onlyNotModifiers found := by
  obtain ⟨fs, rest, rfl, hfs, hrest⟩ := split_found onlyNotModifiers found
  rw [List.filterMap_append, List.filterMap_map, Function.id_comp, List.filterMap_some] at hfresh
  obtain ⟨c', hbuild, hc', hstream', hdeleted', hfilters'⟩ := build_fine hfs rest hc hstream hfresh.front []
  rw [hbuild, List.nil_append]
  rcases hrest with rfl | ⟨o, rest, rfl, ho⟩
  · rw [List.append_nil, sent_fine hfs, ← allOrNothing_fine hfs hc' hstream' hfilters']
    simp [build]
  · rw [sent_stopped hfs ho]
    cases o with
    | none =>
      have hnone := @allOrNothing_stopped F S onlyNotModifiers c c' out fs (fs.map some ++ none :: rest) c.filters []
        hfresh.front (by simp) hdeleted' hfilters'
      rw [← hnone]
      simp [build]
    | some f =>
      have hlast : ∀ g ∈ fs, g.object ∉ [f.object] := by
        intro g hg hmem
        have hnodup := hfresh.nodup
        change ((fs ++ f :: rest.filterMap id).map Filter.object).Nodup at hnodup
        rw [List.map_append, List.map_cons, List.nodup_append] at hnodup
        exact hnodup.2.2 _ (List.mem_map_of_mem hg) _ List.mem_cons_self (List.mem_singleton.mp hmem)
      have hstop : (onlyNotModifiers && f.modifyData) = true := by
        rwa [goesOn, Bool.not_eq_false'] at ho
      rw [← @allOrNothing_stopped F S onlyNotModifiers c c' out fs (fs.map some ++ some f :: rest) c.filters
        [f.object] hfresh.front hlast hdeleted' hfilters']
      simp only [build, hstop, if_true, Option.some.injEq, exists_eq_left']

/-- The `gzip` filter over a stream that takes its header or fails to. -/
def gzipFactory (fails : Bool) : FiltersFactory Nat where
  staticFilters name :=
    if name = ascii "gzip" then
      some fun n => some ⟨n, true, ⟨some [0x1f, 0x8b, 8, 0, 0, 0, 0, 0, 0, 3], fails⟩⟩
    else none
  dynamicFilters _ := none

end FiltersFactory

end MyServer.Filters
