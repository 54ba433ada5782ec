import Mathlib.Tactic
import Mathlib.Logic.Relation
import Mathlib.Data.Fintype.EquivFin
import Mathlib.Order.WellFounded
import Mathlib.Data.Set.Finite.Basic

/-!
# Recursion along the edges of a graph

`walk` visits a node and then, one after the other, walks from each of its
successors. It keeps no list of the nodes that it has seen. On a graph with
finitely many nodes that have successors it ends exactly when no cycle can be
reached.
-/

open Relation

namespace MyServer.Graph

variable {α : Type} (next : α → List α)

def Edge (a b : α) : Prop := b ∈ next a

/-- A path of any length. -/
abbrev Reach : α → α → Prop := ReflTransGen (Edge next)

/-- The node is on a cycle. -/
def OnCycle (a : α) : Prop := TransGen (Edge next) a a

variable {next}

theorem reach_iff_cases {a b : α} : Reach next a b ↔ b = a ∨ ∃ c ∈ next a, Reach next c b :=
  ReflTransGen.cases_head_iff.trans (or_congr eq_comm Iff.rfl)

/-- Below a node from which every descent ends there is no cycle. -/
theorem not_onCycle_of_acc {a b : α} (h : Acc (fun b a => Edge next a b) a) (hab : Reach next a b) :
    ¬ OnCycle next b := by
  induction h generalizing b with
  | intro a h ih =>
    intro hcycle
    rcases ReflTransGen.cases_head_iff.mp hab with rfl | ⟨c, hac, hcb⟩
    · obtain ⟨c, hac, hca⟩ := TransGen.head'_iff.mp hcycle
      exact ih c hac hca hcycle
    · exact ih c hac hcb hcycle

/-- Without a cycle below it, every descent from a node ends. -/
theorem acc_of_not_onCycle_below {a : α} (hfin : {b | Reach next a b ∧ next b ≠ []}.Finite)
    (h : ∀ b, Reach next a b → ¬ OnCycle next b) : Acc (fun b a => Edge next a b) a := by
  let S : Type := {b : α // Reach next a b ∧ next b ≠ []}
  have : Finite S := hfin
  let R : S → S → Prop := fun x y => TransGen (Edge next) y.1 x.1
  have htrans : IsTrans S R := ⟨fun x y z hxy hyz => hyz.trans hxy⟩
  have hirrefl : Std.Irrefl R := ⟨fun x hx => h x.1 x.2.1 hx⟩
  have hwf : WellFounded R := Finite.wellFounded_of_trans_of_irrefl R
  -- the nodes without successors are accessible anyway
  have hleaf : ∀ b, next b = [] → Acc (fun b a => Edge next a b) b := by
    intro b hb
    constructor
    intro c hc
    rw [Edge, hb] at hc
    exact absurd hc List.not_mem_nil
  have hall : ∀ x : S, Acc (fun b a => Edge next a b) x.1 := by
    intro x
    induction x using hwf.induction with
    | _ x ih =>
      constructor
      intro c hc
      by_cases hnil : next c = []
      · exact hleaf c hnil
      · exact ih ⟨c, x.2.1.tail hc, hnil⟩ (TransGen.single hc)
  by_cases hnil : next a = []
  · exact hleaf a hnil
  · exact hall ⟨a, ReflTransGen.refl, hnil⟩

theorem acc_of_not_onCycle {a : α} (hfin : {b | next b ≠ []}.Finite)
    (h : ∀ b, Reach next a b → ¬ OnCycle next b) : Acc (fun b a => Edge next a b) a :=
  acc_of_not_onCycle_below (hfin.subset fun _ hb => hb.2) h

theorem acc_iff {a : α} (hfin : {b | next b ≠ []}.Finite) :
    Acc (fun b a => Edge next a b) a ↔ ∀ b, Reach next a b → ¬ OnCycle next b :=
  ⟨fun h _ hab => not_onCycle_of_acc h hab, acc_of_not_onCycle hfin⟩

/-! ## The walk -/

section Walk

variable {σ : Type} (next) (visit : α → σ → σ)

def walk : Nat → α → σ → Option σ
  | 0, _, _ => none
  | n + 1, a, s => (next a).foldlM (fun s b => walk n b s) (visit a s)

variable {next visit}

theorem foldlM_mono {f g : σ → α → Option σ} (hfg : ∀ s b r, f s b = some r → g s b = some r)
    (l : List α) {s r : σ} (h : l.foldlM f s = some r) : l.foldlM g s = some r := by
  induction l generalizing s with
  | nil => exact h
  | cons b l ih =>
    rw [List.foldlM_cons, Option.bind_eq_bind, Option.bind_eq_some_iff] at h ⊢
    obtain ⟨s', hs', hr⟩ := h
    exact ⟨s', hfg s b s' hs', ih hr⟩

theorem walk_succ {n : Nat} {a : α} {s r : σ} (h : walk next visit n a s = some r) :
    walk next visit (n + 1) a s = some r := by
  induction n generalizing a s r with
  | zero => contradiction
  | succ n ih => exact foldlM_mono (fun s b r => ih) (next a) h

theorem walk_mono {n k : Nat} (hnk : n ≤ k) {a : α} {s r : σ} (h : walk next visit n a s = some r) :
    walk next visit k a s = some r := by
  induction hnk with
  | refl => exact h
  | step _ ih => exact walk_succ ih

theorem acc_of_walk {n : Nat} {a : α} {s r : σ} (h : walk next visit n a s = some r) :
    Acc (fun b a => Edge next a b) a := by
  induction n generalizing a s r with
  | zero => contradiction
  | succ n ih =>
    constructor
    intro b hb
    unfold walk at h
    have hmem : ∀ (l : List α) (s r : σ), l.foldlM (fun s b => walk next visit n b s) s = some r →
        ∀ b ∈ l, ∃ s' r', walk next visit n b s' = some r' := by
      intro l
      induction l with
      | nil => intro s r _ b hb; exact absurd hb List.not_mem_nil
      | cons c l ihl =>
        intro s r hl b hb
        rw [List.foldlM_cons, Option.bind_eq_bind, Option.bind_eq_some_iff] at hl
        obtain ⟨s', hs', hl⟩ := hl
        rcases List.mem_cons.mp hb with rfl | hb
        · exact ⟨s, s', hs'⟩
        · exact ihl s' r hl b hb
    obtain ⟨s', r', hr'⟩ := hmem _ _ _ h b hb
    exact ih hr'

theorem walk_of_acc {a : α} (h : Acc (fun b a => Edge next a b) a) :
    ∃ n, ∀ s, ∃ r, walk next visit n a s = some r := by
  induction h with
  | intro a _ ih =>
    have hlist : ∀ l : List α, (∀ b ∈ l, b ∈ next a) →
        ∃ n, ∀ s, ∃ r, l.foldlM (fun s b => walk next visit n b s) s = some r := by
      intro l
      induction l with
      | nil => exact fun _ => ⟨0, fun s => ⟨s, rfl⟩⟩
      | cons b l ihl =>
        intro hl
        obtain ⟨n, hn⟩ := ih b (hl b List.mem_cons_self)
        obtain ⟨k, hk⟩ := ihl fun c hc => hl c (List.mem_cons_of_mem _ hc)
        refine ⟨max n k, fun s => ?_⟩
        obtain ⟨s', hs'⟩ := hn s
        obtain ⟨r, hr⟩ := hk s'
        refine ⟨r, ?_⟩
        rw [List.foldlM_cons, Option.bind_eq_bind, Option.bind_eq_some_iff]
        exact ⟨s', walk_mono (le_max_left n k) hs',
          foldlM_mono (fun s c r => walk_mono (le_max_right n k)) l hr⟩
    obtain ⟨n, hn⟩ := hlist (next a) fun _ hb => hb
    exact ⟨n + 1, fun s => hn (visit a s)⟩

/-- **The walk ends** exactly when it can reach no cycle. -/
theorem walk_ends_iff (hfin : {b | next b ≠ []}.Finite) (a : α) (s : σ) :
    (∃ n r, walk next visit n a s = some r) ↔ ∀ b, Reach next a b → ¬ OnCycle next b := by
  rw [← acc_iff hfin]
  constructor
  · rintro ⟨n, r, h⟩
    exact acc_of_walk h
  · intro h
    obtain ⟨n, hn⟩ := @walk_of_acc _ _ _ visit _ h
    obtain ⟨r, hr⟩ := hn s
    exact ⟨n, r, hr⟩

/-- **A walk that ends has visited** what can be reached, and nothing else. -/
theorem walk_marks {marked : σ → α → Prop} (hvisit : ∀ a s b, marked (visit a s) b ↔ b = a ∨ marked s b)
    {n : Nat} {a : α} {s r : σ} (h : walk next visit n a s = some r) (b : α) :
    marked r b ↔ Reach next a b ∨ marked s b := by
  induction n generalizing a s r with
  | zero => contradiction
  | succ n ih =>
    have hlist : ∀ (l : List α) (s r : σ), l.foldlM (fun s b => walk next visit n b s) s = some r →
        (marked r b ↔ (∃ c ∈ l, Reach next c b) ∨ marked s b) := by
      intro l
      induction l with
      | nil =>
        intro s r hr
        cases hr
        simp
      | cons c l ihl =>
        intro s r hr
        rw [List.foldlM_cons, Option.bind_eq_bind, Option.bind_eq_some_iff] at hr
        obtain ⟨s', hs', hr⟩ := hr
        rw [ihl s' r hr, ih hs', List.exists_mem_cons_iff]
        exact or_left_comm.trans or_assoc.symm
    unfold walk at h
    rw [hlist _ _ _ h, hvisit, reach_iff_cases]
    exact or_left_comm.trans or_assoc.symm

end Walk

end MyServer.Graph
