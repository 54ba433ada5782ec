import MyServer.HashMap.Filled

/-!
# What a walk visits

A walk steps on the buckets that the side table calls live, read at `mapIter`
and not at the bucket. The two go together from `begin` on. From `getI` on they
go together only as far as `begin` or `end` happened to leave `mapIter`.
-/

namespace MyServer.HashMap

variable {V : Type}

def nodes (h : HashMap V) (i : Nat) : List (Node V) := (h.live i).map (Prod.mk i)

/-- The live entries, bucket by bucket. -/
def entries (h : HashMap V) : List (Node V) := (List.range h.capacity).flatMap h.nodes

/-- What is read at `mapIter` and the next `n` places tells which of the buckets from `v` on are live. -/
def Follows (h : HashMap V) (offset : Nat) (mapIter : Option Nat) (v n : Nat) : Prop :=
  ∀ k < n, ∃ m, h.mark (mapIter.map (· + k)) = some m ∧ (offset ≤ m ↔ h.offset ≤ h.map.get (v + k))

theorem follows_succ {h : HashMap V} {offset v n : Nat} {mapIter : Option Nat} :
    Follows h offset mapIter v (n + 1) ↔
      (∃ m, h.mark mapIter = some m ∧ (offset ≤ m ↔ h.offset ≤ h.map.get v)) ∧
        Follows h offset (mapIter.map (· + 1)) (v + 1) n := by
  have hshift : ∀ k, (mapIter.map (· + 1)).map (· + k) = mapIter.map (· + (k + 1)) := by
    intro k
    rw [Option.map_map]
    congr 1
    funext i
    simp only [Function.comp]
    omega
  unfold Follows
  simp only [hshift, Nat.add_assoc, Nat.add_comm 1]
  constructor
  · intro h'
    refine ⟨?_, fun k hk => h' (k + 1) (by omega)⟩
    simpa using h' 0 (by omega)
  · rintro ⟨h0, hrest⟩ k hk
    cases k with
    | zero => simpa using h0
    | succ k => exact hrest k (by omega)

/-! ## Along a bucket -/

theorem next_last {h : HashMap V} {it : MyIterator V} {e : Shkv V} (hl : it.listIter = [e]) :
    h.next it =
      h.seek it.offset (h.data.size - (it.vectorIter + 1)) (it.mapIter.map (· + 1)) (it.vectorIter + 1) := by
  unfold next
  rw [hl]

theorem next_cons {h : HashMap V} {it : MyIterator V} {e d : Shkv V} {rest : List (Shkv V)}
    (hl : it.listIter = e :: d :: rest) : h.next it = some { it with listIter := d :: rest } := by
  unfold next
  rw [hl]

/-- A walk visits the rest of its bucket, and goes on where the loop of `++` comes out. -/
theorem visits_bucket_iff {h : HashMap V} {it : MyIterator V} (hne : it.listIter ≠ []) (tail : List (Node V)) :
    Visits h it (it.listIter.map (Prod.mk it.vectorIter) ++ tail) ↔
      ∃ it', h.seek it.offset (h.data.size - (it.vectorIter + 1)) (it.mapIter.map (· + 1)) (it.vectorIter + 1) =
        some it' ∧ Visits h it' tail := by
  obtain ⟨offset, mapIter, v, l⟩ := it
  induction l with
  | nil => exact absurd rfl hne
  | cons e l ih =>
    cases l with
    | nil =>
      rw [← next_last rfl]
      constructor
      · intro hv
        cases hv with
        | next hl hnext hv =>
          cases hl
          exact ⟨_, hnext, hv⟩
      · rintro ⟨it', hnext, hv⟩
        exact Visits.next rfl hnext hv
    | cons d l =>
      rw [← ih (by simp)]
      constructor
      · intro hv
        cases hv with
        | next hl hnext hv =>
          cases hl
          rw [next_cons rfl] at hnext
          cases hnext
          exact hv
      · exact fun hv => Visits.next rfl (next_cons rfl) hv

/-! ## Along the buckets -/

theorem seek_ge {h : HashMap V} {offset n v : Nat} {mapIter : Option Nat} {it : MyIterator V}
    (hseek : h.seek offset n mapIter v = some it) : v ≤ it.vectorIter := by
  induction n generalizing mapIter v with
  | zero =>
    cases hseek
    exact le_rfl
  | succ n ih =>
    obtain ⟨m, -, hseek⟩ := Option.bind_eq_some_iff.mp hseek
    split_ifs at hseek
    · cases hseek
      exact le_rfl
    · exact (Nat.le_succ v).trans (ih hseek)

theorem Visits.head {h : HashMap V} {it : MyIterator V} {n : Node V} {ns : List (Node V)}
    (hv : Visits h it (n :: ns)) : n.1 = it.vectorIter := by
  cases hv
  rfl

theorem nodes_live {h : HashMap V} {v : Nat} (hmark : h.offset ≤ h.map.get v) :
    h.nodes v = (h.data.get v).map (Prod.mk v) := by
  unfold nodes
  rw [live_of_marked hmark]

theorem nodes_stale {h : HashMap V} {v : Nat} (hmark : ¬ h.offset ≤ h.map.get v) : h.nodes v = [] := by
  unfold nodes
  rw [live_of_stale (not_le.mp hmark)]
  rfl

theorem mem_nodes {h : HashMap V} {v : Nat} {n : Node V} (hn : n ∈ h.nodes v) : n.1 = v := by
  obtain ⟨e, -, rfl⟩ := List.mem_map.mp hn
  rfl

theorem lt_of_mem_later {h : HashMap V} {v n : Nat} {x : Node V}
    (hx : x ∈ (List.range' (v + 1) n).flatMap h.nodes) : v < x.1 := by
  obtain ⟨i, hi, hx⟩ := List.mem_flatMap.mp hx
  rw [mem_nodes hx]
  have := (List.mem_range'_1.mp hi).1
  omega

theorem not_visits_later {h : HashMap V} {it : MyIterator V} {l : List (Node V)}
    (hin : it.vectorIter < h.data.size) (hl : ∀ x ∈ l, it.vectorIter < x.1) : ¬ Visits h it l := by
  intro hv
  cases l with
  | nil =>
    cases hv with
    | done hend => exact absurd hend.1 hin.ne
  | cons x l =>
    have hx := hl x List.mem_cons_self
    rw [hv.head] at hx
    exact lt_irrefl _ hx

theorem seek_succ {h : HashMap V} {offset n v m : Nat} {mapIter : Option Nat} (hm : h.mark mapIter = some m) :
    h.seek offset (n + 1) mapIter v =
      if offset ≤ m then some { offset, mapIter, vectorIter := v, listIter := h.data.get v }
      else h.seek offset n (mapIter.map (· + 1)) (v + 1) := by
  rw [seek, hm, Option.bind_some]

/-- **The loop of `++`** leads to the live entries of the buckets to come, and to nothing else, exactly when
the marks it reads are those of these buckets. -/
theorem seek_visits_iff {h : HashMap V} (hf : Filled h) {n : Nat} {offset v : Nat} {mapIter : Option Nat}
    (hn : v + n = h.data.size) :
    (∃ it, h.seek offset n mapIter v = some it ∧ Visits h it ((List.range' v n).flatMap h.nodes)) ↔
      Follows h offset mapIter v n := by
  induction n generalizing mapIter v with
  | zero =>
    refine iff_of_true ⟨_, rfl, Visits.done ⟨hn, rfl⟩⟩ fun k hk => ?_
    omega
  | succ n ih =>
    rw [follows_succ, ← ih (by omega), List.range'_succ, List.flatMap_cons]
    cases hm : h.mark mapIter with
    | none =>
      refine iff_of_false ?_ ?_
      · rintro ⟨it, hseek, -⟩
        rw [seek, hm] at hseek
        cases hseek
      · rintro ⟨⟨m, hm', -⟩, -⟩
        cases hm'
    | some m =>
      rw [seek_succ hm]
      have hfirst : (∃ m', some m = some m' ∧ (offset ≤ m' ↔ h.offset ≤ h.map.get v)) ↔
          (offset ≤ m ↔ h.offset ≤ h.map.get v) := by
        simp
      rw [hfirst]
      by_cases hread : offset ≤ m
      · rw [if_pos hread]
        by_cases hlive : h.offset ≤ h.map.get v
        · -- The loop stops at this bucket, and it is live.
          have hbucket := @visits_bucket_iff V h
            { offset, mapIter, vectorIter := v, listIter := h.data.get v } (hf.bucket v hlive)
            ((List.range' (v + 1) n).flatMap h.nodes)
          rw [show h.data.size - (v + 1) = n by omega] at hbucket
          rw [nodes_live hlive, and_iff_right (iff_of_true hread hlive), ← hbucket]
          simp
        · rw [nodes_stale hlive]
          refine iff_of_false ?_ fun hr => hlive (hr.1.mp hread)
          rintro ⟨it, heq, hv⟩
          cases heq
          exact not_visits_later (by dsimp only; omega) (fun x hx => lt_of_mem_later hx) hv
      · rw [if_neg hread]
        by_cases hlive : h.offset ≤ h.map.get v
        · refine iff_of_false ?_ fun hr => hread (hr.1.mpr hlive)
          rintro ⟨it, hseek, hv⟩
          -- The loop has passed a live bucket.
          obtain ⟨e, l, hl⟩ := List.exists_cons_of_ne_nil (hf.bucket v hlive)
          rw [nodes_live hlive, hl] at hv
          have hhead : v = it.vectorIter := hv.head
          have := seek_ge hseek
          omega
        · rw [nodes_stale hlive, and_iff_right (iff_of_false hread hlive), List.nil_append]

theorem follows_self {h : HashMap V} {v n : Nat} (hsize : v + n ≤ h.map.size) : Follows h h.offset (some v) v n := by
  intro k hk
  refine ⟨h.map.get (v + k), ?_, Iff.rfl⟩
  exact if_pos (show v + k < h.map.size by omega)

/-! ## The whole table -/

theorem entries_split {h : HashMap V} {t : Nat} (ht : t < h.capacity) :
    h.entries = (List.range' 0 t).flatMap h.nodes ++
      (h.nodes t ++ (List.range' (t + 1) (h.capacity - (t + 1))).flatMap h.nodes) := by
  have hrange : List.range h.capacity =
      List.range' 0 t ++ t :: List.range' (t + 1) (h.capacity - (t + 1)) := by
    have hsplit : List.range' 0 t ++ List.range' (0 + 1 * t) (h.capacity - t) =
        List.range' 0 (t + (h.capacity - t)) := List.range'_append
    rw [Nat.one_mul, Nat.zero_add, Nat.add_sub_cancel' ht.le] at hsplit
    rw [List.range_eq_range', ← hsplit, ← List.range'_succ]
    congr 2
    omega
  unfold entries
  rw [hrange, List.flatMap_append, List.flatMap_cons]

theorem mem_entries {h : HashMap V} {n : Node V} : n ∈ h.entries ↔ n.1 < h.capacity ∧ n.2 ∈ h.live n.1 := by
  unfold entries nodes
  rw [List.mem_flatMap]
  constructor
  · rintro ⟨i, hi, hn⟩
    obtain ⟨e, he, rfl⟩ := List.mem_map.mp hn
    exact ⟨List.mem_range.mp hi, he⟩
  · rintro ⟨hi, he⟩
    exact ⟨n.1, List.mem_range.mpr hi, List.mem_map.mpr ⟨n.2, he, rfl⟩⟩

theorem Inv.keys_nodup {h : HashMap V} (hinv : Inv h) : (h.entries.map fun n => n.2.key).Nodup := by
  have hkeys : h.entries.map (fun n => n.2.key) =
      (List.range h.capacity).flatMap fun i => (h.live i).map Shkv.key := by
    unfold entries nodes
    rw [List.map_flatMap]
    simp [Function.comp_def]
  rw [hkeys, List.nodup_flatMap]
  refine ⟨fun i hi => hinv.chained.nodup i (List.mem_range.mp hi), ?_⟩
  refine List.nodup_range.pairwise_of_forall_ne fun i hi j hj hij => ?_
  rintro key hkeyi hkeyj
  obtain ⟨d, hd, rfl⟩ := List.mem_map.mp hkeyi
  obtain ⟨e, he, hkey⟩ := List.mem_map.mp hkeyj
  have hhomed := hinv.chained.home i (List.mem_range.mp hi) d hd
  have hhomee := hinv.chained.home j (List.mem_range.mp hj) e he
  rw [hkey, hhomed] at hhomee
  exact hij hhomee

theorem Inv.lookup_iff_entries {h : HashMap V} (hinv : Inv h) (key : Str) (value : V) :
    h.lookup key = some value ↔ ∃ n ∈ h.entries, n.2.key = key ∧ n.2.value = value := by
  rw [hinv.lookup_iff]
  constructor
  · rintro ⟨i, hi, e, he, hkey, hvalue⟩
    exact ⟨(i, e), mem_entries.mpr ⟨hi, he⟩, hkey, hvalue⟩
  · rintro ⟨n, hn, hkey, hvalue⟩
    obtain ⟨hi, he⟩ := mem_entries.mp hn
    exact ⟨n.1, hi, n.2, he, hkey, hvalue⟩

/-- **From `begin`** a walk visits the live entries. -/
theorem begin_visits {h : HashMap V} {m : Mapping V} (hr : Refines h m) (hf : Filled h) :
    ∃ it, h.begin = some it ∧ Visits h it h.entries := by
  have hinv := hr.inv
  unfold begin
  split_ifs with hload
  · obtain ⟨i, hi, e, he⟩ := hr.exists_live hload
    obtain ⟨hlt, hmark, hbefore⟩ := firstMarked_spec hi (marked_of_mem_live he)
    dsimp only
    rw [if_pos ⟨hinv.map_size.ge, hinv.data_size ▸ hlt⟩]
    refine ⟨_, rfl, ?_⟩
    have hskip : (List.range' 0 h.firstMarked).flatMap h.nodes = [] := by
      rw [List.flatMap_eq_nil_iff]
      intro j hj
      have hj := (List.mem_range'_1.mp hj).2
      exact nodes_stale (not_le.mpr (hbefore j (by omega)))
    rw [entries_split hlt, hskip, List.nil_append, nodes_live hmark]
    refine (visits_bucket_iff (hf.bucket _ hmark) _).mpr ?_
    dsimp only
    rw [hinv.data_size, seek_visits_iff hf (by rw [hinv.data_size]; omega)]
    change Follows h h.offset (some (h.firstMarked + 1)) _ _
    exact follows_self (by rw [hinv.map_size]; omega)
  · refine ⟨_, rfl, ?_⟩
    have hempty : h.entries = [] := by
      rw [List.eq_nil_iff_forall_not_mem]
      intro n hn
      have hlookup := (hinv.lookup_iff_entries n.2.key n.2.value).mpr ⟨n, hn, rfl, rfl⟩
      rw [not_not, hr.load, Finset.card_eq_zero] at hload
      rw [hr.lookup] at hlookup
      have hsome := Option.isSome_iff_exists.mpr ⟨_, hlookup⟩
      have hmem := Finmap.mem_keys.mpr (Finmap.lookup_isSome.mp hsome)
      rw [hload] at hmem
      exact absurd hmem (Finset.notMem_empty _)
    rw [hempty]
    exact Visits.done ⟨rfl, rfl⟩

/-- **From `getI`**: the walk is as it should be if the marks read from behind `mapIter` on are those of the
buckets behind the key's. -/
theorem getI_visits_iff {h : HashMap V} (hinv : Inv h) (hf : Filled h) (tempIterator : MyIterator V) {key : Str}
    (hkey : (h.lookup key).isSome) :
    (∃ it, h.getI tempIterator key = some it ∧
        Visits h it (h.entries.dropWhile fun n => n.2.key ≠ key)) ↔
      Follows h tempIterator.offset (tempIterator.mapIter.map (· + 1)) ((hash key &&& h.mask) + 1)
        (h.capacity - ((hash key &&& h.mask) + 1)) := by
  have ht : hash key &&& h.mask = place h.power key := index_eq hinv.mask _
  rw [ht]
  set t := place h.power key with hplace
  have hlt : t < h.capacity := hinv.chained.bound key
  -- The entry of the key and what stands behind it in its bucket.
  obtain ⟨e, rest, hrest⟩ : ∃ e rest, ((h.live t).dropWhile fun e => e.key ≠ key) = e :: rest := by
    apply List.exists_cons_of_ne_nil
    intro hnil
    rw [List.dropWhile_eq_nil_iff] at hnil
    rw [lookup_eq, Option.isSome_map, List.find?_isSome] at hkey
    obtain ⟨e, he, hek⟩ := hkey
    exact absurd (by simpa using hek) (of_decide_eq_true (hnil e he))
  have hbefore : ∀ n ∈ (List.range' 0 t).flatMap h.nodes, decide (n.2.key ≠ key) = true := by
    intro n hn
    obtain ⟨i, hi, hn⟩ := List.mem_flatMap.mp hn
    have hi := (List.mem_range'_1.mp hi).2
    obtain ⟨d, hd, rfl⟩ := List.mem_map.mp hn
    have hhome := hinv.chained.home i (by omega) d hd
    rw [decide_eq_true_iff]
    intro hdk
    have hti : t = i := by
      rw [hplace, ← hdk]
      exact hhome
    omega
  have hnodes : (h.nodes t).dropWhile (fun n => decide (n.2.key ≠ key)) = (e :: rest).map (Prod.mk t) := by
    unfold nodes
    rw [List.dropWhile_map, ← hrest]
    rfl
  have hentries : (h.entries.dropWhile fun n => n.2.key ≠ key) =
      (e :: rest).map (Prod.mk t) ++ (List.range' (t + 1) (h.capacity - (t + 1))).flatMap h.nodes := by
    rw [entries_split hlt, List.dropWhile_append_of_pos hbefore, List.dropWhile_append, hnodes]
    rfl
  have hgetI : h.getI tempIterator key = some { tempIterator with vectorIter := t, listIter := e :: rest } := by
    unfold getI
    rw [slot_eq hinv, Option.map_some, ← hplace, hrest]
  have hbucket := @visits_bucket_iff V h { tempIterator with vectorIter := t, listIter := e :: rest } (by simp)
    ((List.range' (t + 1) (h.capacity - (t + 1))).flatMap h.nodes)
  dsimp only at hbucket
  rw [hinv.data_size, seek_visits_iff hf (by rw [hinv.data_size]; omega)] at hbucket
  rw [hentries, hgetI, ← hbucket]
  simp

/-! ## Runs -/

/-- The table with the iterator that it keeps. `room` is the `capacity ()` of the side table: it moves when it
outgrows that. -/
structure Cursored (V : Type) where
  table : HashMap V
  room : Nat
  tempIterator : MyIterator V

/-- Nobody has set the iterator. -/
def start (h : HashMap V) : Cursored V where
  table := h
  room := h.map.size
  tempIterator := { offset := 0, mapIter := none, vectorIter := 0, listIter := [] }

def settle (s : Cursored V) (h : HashMap V) : Cursored V :=
  if s.room < h.map.size then
    { table := h, room := h.map.size, tempIterator := { s.tempIterator with mapIter := none } }
  else { s with table := h }

inductive Move (V : Type)
  | op (op : Op V)
  | begin
  | endIter
  | getI (key : Str)

section Runs

variable [Zero V]

def move (s : Cursored V) : Move V → Option (Cursored V)
  | .op op => (s.table.step op).map fun r => settle s r.2
  | .begin => s.table.begin.map fun it => { s with tempIterator := it }
  | .endIter => some { s with tempIterator := s.table.endIter }
  | .getI key => (s.table.getI s.tempIterator key).map fun it => { s with tempIterator := it }

/-- The tables that operations lead to. -/
def Standing (h : HashMap V) : Prop := (∃ m, Sound (h, m)) ∧ Filled h

theorem Standing.step {h h' : HashMap V} {op : Op V} {r : Result V} (hs : Standing h)
    (hstep : h.step op = some (r, h')) : Standing h' := by
  obtain ⟨⟨m, hsound⟩, hf⟩ := hs
  have hboth : stepBoth (h, m) op = some (h', (specStep m op).2) := by
    unfold stepBoth
    rw [hstep]
    rfl
  exact ⟨⟨_, hsound.step hboth⟩, filled_step hsound hf hboth⟩

theorem Standing.move {s s' : Cursored V} {a : Move V} (hs : Standing s.table) (hmove : move s a = some s') :
    Standing s'.table := by
  cases a with
  | op op =>
    obtain ⟨⟨r, h'⟩, hstep, rfl⟩ := Option.map_eq_some_iff.mp hmove
    have htable : (settle s h').table = h' := by
      unfold settle
      split_ifs <;> rfl
    rw [htable]
    exact hs.step hstep
  | begin =>
    obtain ⟨it, -, rfl⟩ := Option.map_eq_some_iff.mp hmove
    exact hs
  | endIter =>
    cases hmove
    exact hs
  | getI key =>
    obtain ⟨it, -, rfl⟩ := Option.map_eq_some_iff.mp hmove
    exact hs

theorem Standing.run {s s' : Cursored V} {moves : List (Move V)} (hs : Standing s.table)
    (hrun : Safety.run HashMap.move moves s = some s') : Standing s'.table := by
  induction moves generalizing s with
  | nil =>
    cases hrun
    exact hs
  | cons a moves ih =>
    obtain ⟨s₁, hmove, hrun⟩ := Option.bind_eq_some_iff.mp hrun
    exact ih (hs.move hmove) hrun

omit [Zero V] in
theorem standing_new {hashCapacity : Int} {factor : LoadFactor} {h : HashMap V}
    (hnew : new hashCapacity factor = some h) : Standing h := by
  refine ⟨⟨∅, Or.inl (counted_new hnew)⟩, ?_⟩
  unfold new at hnew
  dsimp only at hnew
  split_ifs at hnew
  rw [← Option.some.inj hnew]
  exact ⟨Nat.one_pos, fun i hi => absurd hi (by norm_num)⟩

/-- Walks as they should be. -/
structure Iterates (s : Cursored V) : Prop where
  /-- Every live entry is there. -/
  all : ∀ key value, s.table.lookup key = some value ↔ ∃ n ∈ s.table.entries, n.2.key = key ∧ n.2.value = value
  once : (s.table.entries.map fun n => n.2.key).Nodup
  fromBegin : ∃ it, s.table.begin = some it ∧ Visits s.table it s.table.entries
  fromKey : ∀ key, (s.table.lookup key).isSome → ∃ it, s.table.getI s.tempIterator key = some it ∧
    Visits s.table it (s.table.entries.dropWhile fun n => n.2.key ≠ key)

/-- `tempIterator` stands in the side table where the marks it is about to read are those of the buckets
behind each mapped key. -/
def CursorFits (s : Cursored V) : Prop :=
  ∀ key, (s.table.lookup key).isSome →
    Follows s.table s.tempIterator.offset (s.tempIterator.mapIter.map (· + 1))
      ((hash key &&& s.table.mask) + 1) (s.table.capacity - ((hash key &&& s.table.mask) + 1))

omit [Zero V] in
theorem Standing.iterates_iff_fits {s : Cursored V} (hs : Standing s.table) : Iterates s ↔ CursorFits s := by
  obtain ⟨⟨m, hcounted | hgone⟩, hf⟩ := hs
  · have hr : Refines s.table m := hcounted.refines
    have hinv := hr.inv
    have hkey : (∀ key, (s.table.lookup key).isSome → ∃ it, s.table.getI s.tempIterator key = some it ∧
        Visits s.table it (s.table.entries.dropWhile fun n => n.2.key ≠ key)) ↔ CursorFits s :=
      forall_congr' fun key => imp_congr_right fun hsome => getI_visits_iff hinv hf _ hsome
    rw [← hkey]
    constructor
    · exact fun h => h.fromKey
    · exact fun h => ⟨hinv.lookup_iff_entries, hinv.keys_nodup, begin_visits hr hf, h⟩
  · have hg : Gone s.table := hgone
    have hempty : s.table.entries = [] := by
      unfold entries nodes
      simp [hg.live]
    refine iff_of_true ⟨fun key value => ?_, ?_, ?_, fun key hsome => ?_⟩ fun key hsome => ?_
    · simp [hg.lookup, hempty]
    · simp [hempty]
    · refine ⟨s.table.endIter, ?_, ?_⟩
      · unfold begin
        exact if_neg (not_not.mpr hg.load)
      · rw [hempty]
        exact Visits.done ⟨rfl, rfl⟩
    · simp [hg.lookup] at hsome
    · simp [hg.lookup] at hsome

/-- **Iteration is exact** in the tables whose `tempIterator` stands at the right place. -/
theorem iterates_iff {hashCapacity : Int} {factor : LoadFactor} {h : HashMap V}
    (hnew : new hashCapacity factor = some h) {moves : List (Move V)} {s : Cursored V}
    (hrun : Safety.run move moves (start h) = some s) : Iterates s ↔ CursorFits s :=
  Standing.iterates_iff_fits ((standing_new hnew).run hrun)

/-- One key, and a walk begun. -/
theorem iterates_one : ∃ (h : HashMap Nat) (s : Cursored Nat), new 0 .default = some h ∧
    Safety.run move [.op (.put (ascii "a") 1), .begin] (start h) = some s ∧ Iterates s := by
  obtain ⟨h, hnew⟩ : ∃ h : HashMap Nat, new 0 .default = some h := ⟨_, rfl⟩
  have hstate : (((new 0 .default).bind fun h : HashMap Nat =>
      Safety.run move [.op (.put (ascii "a") 1), .begin] (start h)).map fun s =>
        (s.tempIterator.mapIter, (List.range 16).filter fun t => !(s.table.live t).isEmpty,
          [s.tempIterator.offset, s.table.offset, s.table.mask, s.table.capacity, s.table.power, s.table.map.size])) =
      some (some 1, [1], [1, 1, 15, 16, 4, 16]) := by
    decide +kernel
  rw [hnew, Option.bind_some, Option.map_eq_some_iff] at hstate
  obtain ⟨s, hrun, hs⟩ := hstate
  simp only [Prod.mk.injEq, List.cons.injEq, and_true] at hs
  obtain ⟨hmapIter, hlive, hoffset, hoff, hmask, hcap, hpower, hsize⟩ := hs
  refine ⟨h, s, hnew, hrun, (iterates_iff hnew hrun).mpr fun key hsome => ?_⟩
  have hplace : hash key &&& s.table.mask = place s.table.power key := by
    rw [hmask, hpower]
    exact Nat.and_two_pow_sub_one_eq_mod _ 4
  have hone : place s.table.power key = 1 := by
    have hmem : place s.table.power key ∈ (List.range 16).filter fun t => !(s.table.live t).isEmpty := by
      rw [lookup_eq, Option.isSome_map, List.find?_isSome] at hsome
      obtain ⟨e, he, -⟩ := hsome
      rw [List.mem_filter, List.mem_range]
      refine ⟨hpower ▸ place_lt 4 key, ?_⟩
      simpa using List.ne_nil_of_mem he
    rw [hlive] at hmem
    simpa using hmem
  have hself := @follows_self Nat s.table 2 14 (by rw [hsize])
  rw [hoff] at hself
  rw [hplace, hone, hmapIter, hoffset, hcap]
  exact hself

/-- `e` is put and cleared, `a` and `c` are put. A walk from `c` visits `e` again, whose bucket is read for the
one of `c`. -/
theorem not_iterates : ∃ (h : HashMap Nat) (s : Cursored Nat), new 0 .default = some h ∧
    Safety.run move [.op (.put (ascii "e") 1), .op .clear, .op (.put (ascii "a") 2), .op (.put (ascii "c") 3),
      .begin] (start h) = some s ∧ ¬ Iterates s := by
  obtain ⟨h, hnew⟩ : ∃ h : HashMap Nat, new 0 .default = some h := ⟨_, rfl⟩
  have hmarks : (((new 0 .default).bind fun h : HashMap Nat => Safety.run move [.op (.put (ascii "e") 1),
      .op .clear, .op (.put (ascii "a") 2), .op (.put (ascii "c") 3), .begin] (start h)).map fun s =>
        ((s.table.lookup (ascii "c")).isSome, s.tempIterator.mapIter, s.table.mark (some 3),
          [s.tempIterator.offset, s.table.offset, s.table.mask, s.table.capacity, s.table.map.get 5])) =
      some (true, some 1, some 2, [2, 2, 15, 16, 1]) := by
    decide +kernel
  rw [hnew, Option.bind_some, Option.map_eq_some_iff] at hmarks
  obtain ⟨s, hrun, hs⟩ := hmarks
  simp only [Prod.mk.injEq, List.cons.injEq, and_true] at hs
  obtain ⟨hsome, hmapIter, hmark, hoffset, hoff, hmask, hcap, hget⟩ := hs
  refine ⟨h, s, hnew, hrun, fun hit => ?_⟩
  have hfits := (Standing.iterates_iff_fits ((standing_new hnew).run hrun)).mp hit (ascii "c") hsome
  have hplace : hash (ascii "c") &&& 15 = 3 := by decide
  rw [hmapIter, hoffset, hmask, hplace, hcap] at hfits
  obtain ⟨m, hm, hiff⟩ := hfits 1 (by norm_num)
  rw [show ((some 1).map (· + 1)).map (· + 1) = some 3 from rfl, hmark] at hm
  cases hm
  rw [hoff, hget] at hiff
  exact absurd (hiff.mp le_rfl) (by norm_num)

end Runs

end MyServer.HashMap
