import MyServer.Lib.Graph

/-!
# A descent that reports

The items of a node are looked at in turn. One of them sends the descent into another node, one is noted, one
stops everything. `descend` brings back the nodes that it entered, in the order of the visits, and the notes.
No list of the nodes seen is kept: a node is entered as often as a path leads to it.
-/

open Relation

namespace MyServer.Descent

inductive Item (α ε : Type) where
  | stop
  | note (e : ε)
  | enter (b : α)

variable {α ε : Type} (items : α → List (Item α ε))

def Item.entered : Item α ε → Option α
  | enter b => some b
  | _ => none

/-- The nodes that are entered from a node. -/
def next (a : α) : List α := (items a).filterMap Item.entered

/-- With `n` levels left. `none` is a descent that was stopped, or that ran out of levels. -/
def descend : Nat → α → Option (List α × List ε)
  | 0, _ => none
  | n + 1, a => (items a).foldlM (fun found i => match i with
      | .stop => none
      | .note e => some (found.1, found.2 ++ [e])
      | .enter b => (descend n b).map fun below => (found.1 ++ b :: below.1, found.2 ++ below.2)) ([], [])

/-- What one item adds. -/
def part (n : Nat) : Item α ε → Option (List α × List ε)
  | .stop => none
  | .note e => some ([], [e])
  | .enter b => (descend items n b).map fun below => (b :: below.1, below.2)

variable {items}

theorem mem_next {a b : α} : b ∈ next items a ↔ Item.enter b ∈ items a := by
  unfold next
  rw [List.mem_filterMap]
  constructor
  · rintro ⟨i, hi, hb⟩
    cases i with
    | enter c => exact Option.some_inj.mp hb ▸ hi
    | note e => cases hb
    | stop => cases hb
  · intro h
    exact ⟨_, h, rfl⟩

/-- **One level of the descent** puts together what its items add. -/
theorem descend_succ {n : Nat} {a : α} {r : List α × List ε} :
    descend items (n + 1) a = some r ↔ ∃ parts : List (List α × List ε),
      List.Forall₂ (fun i p => part items n i = some p) (items a) parts ∧
        r = (parts.flatMap Prod.fst, parts.flatMap Prod.snd) := by
  have hloop : ∀ (l : List (Item α ε)) (found : List α × List ε),
      l.foldlM (fun found i => match i with
        | .stop => none
        | .note e => some (found.1, found.2 ++ [e])
        | .enter b => (descend items n b).map fun below => (found.1 ++ b :: below.1, found.2 ++ below.2)) found
        = some r ↔ ∃ parts : List (List α × List ε), List.Forall₂ (fun i p => part items n i = some p) l parts ∧
          r = (found.1 ++ parts.flatMap Prod.fst, found.2 ++ parts.flatMap Prod.snd) := by
    intro l
    induction l with
    | nil =>
      intro found
      simp only [List.foldlM_nil, List.forall₂_nil_left_iff, exists_eq_left, List.flatMap_nil, List.append_nil]
      exact ⟨fun h => (Option.some_inj.mp h).symm, fun h => congrArg some h.symm⟩
    | cons i l ih =>
      intro found
      have hstep : (match i with
          | .stop => none
          | .note e => some (found.1, found.2 ++ [e])
          | .enter b => (descend items n b).map fun below => (found.1 ++ b :: below.1, found.2 ++ below.2)) =
          (part items n i).map fun p => (found.1 ++ p.1, found.2 ++ p.2) := by
        cases i with
        | stop => rfl
        | note e => simp only [part, Option.map_some, List.append_nil]
        | enter b =>
          rw [part, Option.map_map]
          rfl
      rw [List.foldlM_cons, hstep, Option.bind_eq_bind, Option.bind_eq_some_iff]
      constructor
      · rintro ⟨found', hfound', hrest⟩
        obtain ⟨p, hp, rfl⟩ := Option.map_eq_some_iff.mp hfound'
        obtain ⟨parts, hparts, rfl⟩ := (ih _).mp hrest
        refine ⟨p :: parts, List.Forall₂.cons hp hparts, ?_⟩
        simp only [List.flatMap_cons, List.append_assoc]
      · rintro ⟨parts, hparts, rfl⟩
        cases hparts with
        | cons hp hparts =>
          rename_i p parts
          refine ⟨_, Option.map_eq_some_iff.mpr ⟨p, hp, rfl⟩, (ih _).mpr ⟨parts, hparts, ?_⟩⟩
          simp only [List.flatMap_cons, List.append_assoc]
  exact hloop (items a) ([], [])

theorem mem_of_forall₂ {β γ : Type} {R : β → γ → Prop} {l : List β} {m : List γ} (h : List.Forall₂ R l m) :
    (∀ b ∈ l, ∃ c ∈ m, R b c) ∧ ∀ c ∈ m, ∃ b ∈ l, R b c := by
  induction h with
  | nil => simp
  | cons hR _ ih =>
    obtain ⟨hleft, hright⟩ := ih
    constructor
    · intro b hb
      rcases List.mem_cons.mp hb with rfl | hb
      · exact ⟨_, List.mem_cons_self, hR⟩
      · obtain ⟨c, hc, hbc⟩ := hleft b hb
        exact ⟨c, List.mem_cons_of_mem _ hc, hbc⟩
    · intro c hc
      rcases List.mem_cons.mp hc with rfl | hc
      · exact ⟨_, List.mem_cons_self, hR⟩
      · obtain ⟨b, hb, hbc⟩ := hright c hc
        exact ⟨b, List.mem_cons_of_mem _ hb, hbc⟩

/-! ## When it ends -/

theorem descend_mono {n k : Nat} (hnk : n ≤ k) {a : α} {r : List α × List ε} (h : descend items n a = some r) :
    descend items k a = some r := by
  induction k generalizing n a r with
  | zero =>
    obtain rfl := Nat.le_zero.mp hnk
    exact h
  | succ k ih =>
    cases n with
    | zero => cases h
    | succ n =>
      obtain ⟨parts, hparts, hr⟩ := descend_succ.mp h
      refine descend_succ.mpr ⟨parts, hparts.imp fun i p hp => ?_, hr⟩
      cases i with
      | stop => exact hp
      | note e => exact hp
      | enter b =>
        obtain ⟨below, hbelow, rfl⟩ := Option.map_eq_some_iff.mp hp
        exact Option.map_eq_some_iff.mpr ⟨below, ih (Nat.succ_le_succ_iff.mp hnk) hbelow, rfl⟩

/-- A descent that ends ends from every node that it enters, and nothing on the way stops it. -/
theorem of_descend {n : Nat} {a : α} {r : List α × List ε} (h : descend items (n + 1) a = some r) :
    Item.stop ∉ items a ∧ ∀ b ∈ next items a, ∃ below, descend items n b = some below := by
  obtain ⟨parts, hparts, -⟩ := descend_succ.mp h
  obtain ⟨hleft, -⟩ := mem_of_forall₂ hparts
  constructor
  · intro hstop
    obtain ⟨p, -, hp⟩ := hleft _ hstop
    cases hp
  · intro b hb
    obtain ⟨p, -, hp⟩ := hleft _ (mem_next.mp hb)
    obtain ⟨below, hbelow, -⟩ := Option.map_eq_some_iff.mp hp
    exact ⟨below, hbelow⟩

theorem acc_of_descend {n : Nat} {a : α} {r : List α × List ε} (h : descend items n a = some r) :
    Acc (fun b a => Graph.Edge (next items) a b) a ∧
      ∀ b, Graph.Reach (next items) a b → Item.stop ∉ items b := by
  induction n generalizing a r with
  | zero => cases h
  | succ n ih =>
    obtain ⟨hstop, hnext⟩ := of_descend h
    constructor
    · constructor
      intro b hb
      obtain ⟨below, hbelow⟩ := hnext b hb
      exact (ih hbelow).1
    · intro b hab
      rcases Graph.reach_iff_cases.mp hab with rfl | ⟨c, hc, hcb⟩
      · exact hstop
      · obtain ⟨below, hbelow⟩ := hnext c hc
        exact (ih hbelow).2 b hcb

theorem descend_of_acc {a : α} (hacc : Acc (fun b a => Graph.Edge (next items) a b) a)
    (hstop : ∀ b, Graph.Reach (next items) a b → Item.stop ∉ items b) : ∃ n r, descend items n a = some r := by
  induction hacc with
  | intro a _ ih =>
    have hbelow : ∀ b ∈ next items a, ∃ n r, descend items n b = some r := fun b hb =>
      ih b hb fun c hc => hstop c (ReflTransGen.head hb hc)
    -- as many levels as the deepest of the items needs
    have hlist : ∀ l : List (Item α ε), (∀ i ∈ l, i ∈ items a) →
        ∃ n parts, List.Forall₂ (fun i p => part items n i = some p) l parts := by
      intro l
      induction l with
      | nil => exact fun _ => ⟨0, [], List.Forall₂.nil⟩
      | cons i l ihl =>
        intro hl
        obtain ⟨n, parts, hparts⟩ := ihl fun j hj => hl j (List.mem_cons_of_mem _ hj)
        have hi : ∃ k p, part items k i = some p := by
          cases i with
          | stop => exact absurd (hl _ List.mem_cons_self) (hstop a ReflTransGen.refl)
          | note e => exact ⟨0, _, rfl⟩
          | enter b =>
            obtain ⟨k, r, hr⟩ := hbelow b (mem_next.mpr (hl _ List.mem_cons_self))
            exact ⟨k, _, Option.map_eq_some_iff.mpr ⟨r, hr, rfl⟩⟩
        obtain ⟨k, p, hp⟩ := hi
        have hmono : ∀ {m : Nat} {j : Item α ε} {q : List α × List ε}, m ≤ max n k → part items m j = some q →
            part items (max n k) j = some q := by
          intro m j q hm hq
          cases j with
          | stop => exact hq
          | note e => exact hq
          | enter b =>
            obtain ⟨r, hr, rfl⟩ := Option.map_eq_some_iff.mp hq
            exact Option.map_eq_some_iff.mpr ⟨r, descend_mono hm hr, rfl⟩
        exact ⟨max n k, p :: parts, List.Forall₂.cons (hmono (le_max_right n k) hp)
          (hparts.imp fun j q hq => hmono (le_max_left n k) hq)⟩
    obtain ⟨n, parts, hparts⟩ := hlist (items a) fun _ hi => hi
    exact ⟨n + 1, _, descend_succ.mpr ⟨parts, hparts, rfl⟩⟩

/-- **A descent ends** exactly when it can reach no cycle and nothing that stops it. -/
theorem descend_ends_iff {a : α} (hfin : {b | Graph.Reach (next items) a b}.Finite) :
    (∃ n r, descend items n a = some r) ↔
      ∀ b, Graph.Reach (next items) a b → ¬ Graph.OnCycle (next items) b ∧ Item.stop ∉ items b := by
  constructor
  · rintro ⟨n, r, h⟩ b hab
    obtain ⟨hacc, hstop⟩ := acc_of_descend h
    exact ⟨Graph.not_onCycle_of_acc hacc hab, hstop b hab⟩
  · intro h
    have hacc := Graph.acc_of_not_onCycle_below (hfin.subset fun _ hb => hb.1) fun b hab => (h b hab).1
    exact descend_of_acc hacc fun b hab => (h b hab).2

/-! ## What it brings back -/

/-- The nodes that a descent with `n` levels brings back. -/
def found (items : α → List (Item α ε)) (n : Nat) (a : α) : List α := ((descend items n a).map Prod.fst).getD []

/-- **The nodes come in the order of the visits.** -/
theorem descend_fst {n : Nat} {a : α} {r : List α × List ε} (h : descend items (n + 1) a = some r) :
    r.1 = (next items a).flatMap fun b => b :: found items n b := by
  obtain ⟨parts, hparts, rfl⟩ := descend_succ.mp h
  unfold next
  dsimp only
  clear h
  generalize items a = l at hparts ⊢
  induction hparts with
  | nil => rfl
  | @cons i p l parts hp _ ih =>
    rw [List.flatMap_cons, ih]
    cases i with
    | stop => cases hp
    | note e =>
      cases hp
      rfl
    | enter b =>
      obtain ⟨below, hbelow, rfl⟩ := Option.map_eq_some_iff.mp hp
      have hcons : (Item.enter b :: l).filterMap Item.entered = b :: l.filterMap Item.entered := rfl
      rw [hcons, List.flatMap_cons, found, hbelow]
      rfl

/-- **The nodes brought back** are those behind an edge or several. -/
theorem mem_fst_iff {n : Nat} {a : α} {r : List α × List ε} (h : descend items n a = some r) (b : α) :
    b ∈ r.1 ↔ TransGen (Graph.Edge (next items)) a b := by
  induction n generalizing a r with
  | zero => cases h
  | succ n ih =>
    obtain ⟨-, hnext⟩ := of_descend h
    rw [descend_fst h, List.mem_flatMap, TransGen.head'_iff]
    refine exists_congr fun c => and_congr_right fun hc => ?_
    obtain ⟨below, hbelow⟩ := hnext c hc
    rw [found, hbelow, Option.map_some, Option.getD_some, List.mem_cons, ih hbelow, reflTransGen_iff_eq_or_transGen]

/-- **The notes** are those of the node itself and of the nodes that it reaches. -/
theorem mem_snd_iff {n : Nat} {a : α} {r : List α × List ε} (h : descend items n a = some r) (e : ε) :
    e ∈ r.2 ↔ ∃ b, Graph.Reach (next items) a b ∧ Item.note e ∈ items b := by
  induction n generalizing a r with
  | zero => cases h
  | succ n ih =>
    obtain ⟨parts, hparts, rfl⟩ := descend_succ.mp h
    obtain ⟨hleft, hright⟩ := mem_of_forall₂ hparts
    rw [List.mem_flatMap]
    constructor
    · rintro ⟨p, hp, he⟩
      obtain ⟨i, hi, hip⟩ := hright p hp
      cases i with
      | stop => cases hip
      | note e' =>
        cases hip
        obtain rfl := List.mem_singleton.mp he
        exact ⟨a, ReflTransGen.refl, hi⟩
      | enter c =>
        obtain ⟨below, hbelow, rfl⟩ := Option.map_eq_some_iff.mp hip
        obtain ⟨b, hcb, hb⟩ := (ih hbelow).mp he
        exact ⟨b, ReflTransGen.head (mem_next.mpr hi) hcb, hb⟩
    · rintro ⟨b, hab, hb⟩
      rcases Graph.reach_iff_cases.mp hab with rfl | ⟨c, hc, hcb⟩
      · obtain ⟨p, hp, hip⟩ := hleft _ hb
        cases hip
        exact ⟨_, hp, List.mem_singleton_self e⟩
      · obtain ⟨p, hp, hip⟩ := hleft _ (mem_next.mp hc)
        obtain ⟨below, hbelow, rfl⟩ := Option.map_eq_some_iff.mp hip
        exact ⟨_, hp, (ih hbelow).mpr ⟨b, hcb, hb⟩⟩

/-- No node is reached behind two of the edges of one node. -/
def Unshared (items : α → List (Item α ε)) (a : α) : Prop :=
  (next items a).Pairwise fun c d => ∀ b, Graph.Reach (next items) c b → ¬ Graph.Reach (next items) d b

/-- **Every node is brought back once** exactly when no two edges of a node lead to a common one. -/
theorem nodup_fst_iff {n : Nat} {a : α} {r : List α × List ε} (h : descend items n a = some r) :
    r.1.Nodup ↔ ∀ b, Graph.Reach (next items) a b → Unshared items b := by
  induction n generalizing a r with
  | zero => cases h
  | succ n ih =>
    obtain ⟨-, hnext⟩ := of_descend h
    have hmem : ∀ c ∈ next items a, ∀ b, b ∈ c :: found items n c ↔ Graph.Reach (next items) c b := by
      intro c hc b
      obtain ⟨below, hbelow⟩ := hnext c hc
      rw [found, hbelow, Option.map_some, Option.getD_some, List.mem_cons, mem_fst_iff hbelow,
        Graph.Reach, reflTransGen_iff_eq_or_transGen]
    have hone : ∀ c ∈ next items a, (c :: found items n c).Nodup ↔
        ∀ b, Graph.Reach (next items) c b → Unshared items b := by
      intro c hc
      obtain ⟨below, hbelow⟩ := hnext c hc
      have hself : c ∉ below.1 := by
        rw [mem_fst_iff hbelow]
        exact Graph.not_onCycle_of_acc (acc_of_descend hbelow).1 ReflTransGen.refl
      rw [← ih hbelow, found, hbelow, Option.map_some, Option.getD_some, List.nodup_cons, and_iff_right hself]
    have hpairs : (next items a).Pairwise (Function.onFun List.Disjoint fun c => c :: found items n c) ↔
        Unshared items a := by
      refine List.Pairwise.iff_of_mem fun {c d} hc hd => ?_
      constructor
      · intro hdisj b hcb hdb
        exact hdisj ((hmem c hc b).mpr hcb) ((hmem d hd b).mpr hdb)
      · intro hall b hb hb'
        exact hall b ((hmem c hc b).mp hb) ((hmem d hd b).mp hb')
    rw [descend_fst h, List.nodup_flatMap, hpairs]
    constructor
    · rintro ⟨hbelow, hhere⟩ b hab
      rcases Graph.reach_iff_cases.mp hab with rfl | ⟨c, hc, hcb⟩
      · exact hhere
      · exact (hone c hc).mp (hbelow c hc) b hcb
    · intro hall
      exact ⟨fun c hc => (hone c hc).mpr fun b hcb => hall b (ReflTransGen.head hc hcb), hall a ReflTransGen.refl⟩

end MyServer.Descent
