import MyServer.Pycontrollib.SecurityList

/-!
# The attributes of an element that is saved

The known attributes come first and the others behind them, and the flags are spelled anew. The server goes
through the attributes by their local names, and of two of one name the last one counts.
-/

open MyServer.Security

namespace MyServer.Pycontrollib

/-- What is saved has the same keys, and at each of them what `f` makes of the value. -/
def Saves (f : QName → Str → Str) (a b : Attrib) : Prop := ∀ k, b.get k = (a.get k).map (f k)

/-- The attributes with this local name. -/
def entries (n : Str) (a : Attrib) : List (QName × Str) := a.items.filter (·.1.name = n)

/-- The attribute that has no namespace. -/
def own (n : Str) (a : Attrib) : Option (QName × Str) := (a.get ⟨none, n⟩).map (Prod.mk ⟨none, n⟩)

def foreign (n : Str) (a : Attrib) : List (QName × Str) := (entries n a).filter (·.1 ≠ ⟨none, n⟩)

/-- None of these keys stands behind another key of its local name. -/
def InFront (keys : List QName) (a : Attrib) : Prop :=
  a.items.Pairwise fun e e' => e'.1 ∈ keys → e.1.name ≠ e'.1.name

/-- Of two keys of one of these local names the later one is `name`. -/
def NameBehind (a : Attrib) : Prop :=
  a.items.Pairwise fun e e' =>
    e.1.name = e'.1.name → e.1.name = ascii "name" ∨ e.1.name = ascii "value" → e'.1 = plain "name"

instance (keys : List QName) (a : Attrib) : Decidable (InFront keys a) := List.instDecidablePairwise _

instance (a : Attrib) : Decidable (NameBehind a) := by
  unfold NameBehind
  infer_instance

section

variable {a b : Attrib} {f : QName → Str → Str} {n : Str}

/-! ## Texts -/

theorem lastContent_append (l l' : List XmlAttr) :
    lastContent n (l ++ l') = (lastContent n l').or (lastContent n l) := by
  induction l with
  | nil => exact (Option.or_none).symm
  | cons x l ih => rw [List.cons_append, lastContent, lastContent, ih, Option.or_assoc]

theorem lastContent_view (a : Attrib) : lastContent n a.view = lastContent n ((entries n a).map attrOf) := by
  unfold Attrib.view entries
  induction a.items with
  | nil => rfl
  | cons e items ih =>
    rw [List.map_cons, lastContent, List.filter_cons, ih]
    by_cases hname : e.1.name = n
    · rw [decide_eq_true hname, if_pos rfl, List.map_cons, lastContent]
    · rw [decide_eq_false hname, if_neg (show ¬(attrOf e).name = n from hname), Option.or_none]
      rfl

theorem filter_own (n : Str) (a : Attrib) : (entries n a).filter (·.1 = ⟨none, n⟩) = (own n a).toList := by
  have hkey : ∀ items : List (QName × Str), (items.map Prod.fst).Nodup →
      (items.filter (·.1.name = n)).filter (·.1 = ⟨none, n⟩) =
        (((items.find? (·.1 = ⟨none, n⟩)).map Prod.snd).map (Prod.mk (⟨none, n⟩ : QName))).toList := by
    intro items hnodup
    induction items with
    | nil => rfl
    | cons e items ih =>
      obtain ⟨k, v⟩ := e
      obtain ⟨hnotMem, hrest⟩ := List.nodup_cons.mp hnodup
      by_cases hk : k = ⟨none, n⟩
      · subst hk
        have hnone : (items.filter (·.1.name = n)).filter (·.1 = ⟨none, n⟩) = [] := by
          rw [List.filter_eq_nil_iff]
          intro e he hown
          have hkey : e.1 ∈ items.map Prod.fst := List.mem_map_of_mem (List.mem_filter.mp he).1
          rw [of_decide_eq_true hown] at hkey
          exact hnotMem hkey
        simp [hnone]
      · by_cases hname : k.name = n
        · simp [hk, hname, ih hrest]
        · simp [hk, hname, ih hrest]
  exact hkey a.items a.nodup

theorem entries_pairwise {R : QName × Str → QName × Str → Prop} (h : a.items.Pairwise R) :
    (entries n a).Pairwise fun e e' => R e e' ∧ e.1.name = n ∧ e'.1.name = n := by
  have hname : ∀ e ∈ entries n a, e.1.name = n := fun e he => of_decide_eq_true (List.mem_filter.mp he).2
  exact (h.filter _).imp_of_mem fun he he' hR => ⟨hR, hname _ he, hname _ he'⟩

theorem InFront.entries {keys : List QName} (h : InFront keys a) (hn : ⟨none, n⟩ ∈ keys) :
    entries n a = (own n a).toList ++ foreign n a := by
  have hbehind : (Pycontrollib.entries n a).Pairwise fun _ e' => e'.1 ≠ ⟨none, n⟩ := by
    refine (entries_pairwise h).imp fun hpair hown => ?_
    exact hpair.1 (hown ▸ hn) (hpair.2.1.trans hpair.2.2.symm)
  rw [← filter_own, foreign]
  generalize Pycontrollib.entries n a = l at hbehind ⊢
  cases l with
  | nil => rfl
  | cons e l =>
    obtain ⟨hl, -⟩ := List.pairwise_cons.mp hbehind
    have hnone : l.filter (·.1 = ⟨none, n⟩) = [] := by
      rw [List.filter_eq_nil_iff]
      exact fun e' he' hown => hl e' he' (of_decide_eq_true hown)
    have hall : l.filter (·.1 ≠ ⟨none, n⟩) = l := by
      rw [List.filter_eq_self]
      exact fun e' he' => decide_eq_true (hl e' he')
    rw [List.filter_cons, List.filter_cons, hnone, hall]
    by_cases he : e.1 = ⟨none, n⟩
    · simp [he]
    · simp [he]

/-- What is saved has the attribute without a namespace first, with what `f` makes of it. -/
def Fronted (n : Str) (f : Str → Str) (a b : Attrib) : Prop :=
  entries n b = ((a.get ⟨none, n⟩).map fun v => ((⟨none, n⟩ : QName), f v)).toList ++ foreign n a

theorem content_congr (h : entries n b = entries n a) : lastContent n b.view = lastContent n a.view := by
  rw [lastContent_view, lastContent_view, h]

theorem Fronted.content_eq {keys : List QName} (h : Fronted n id a b) (hfront : InFront keys a)
    (hn : ⟨none, n⟩ ∈ keys) : lastContent n b.view = lastContent n a.view :=
  content_congr (h.trans (hfront.entries hn).symm)

/-- A text that `f` gives for itself only. -/
theorem Fronted.content_iff {keys : List QName} {g : Str → Str} (h : Fronted n g a b) (hfront : InFront keys a)
    (hn : ⟨none, n⟩ ∈ keys) {w : Str} (hw : w ≠ []) (hg : ∀ v, a.get ⟨none, n⟩ = some v → (g v = w ↔ v = w)) :
    lastContent n b.view = some w ↔ lastContent n a.view = some w := by
  rw [lastContent_view, lastContent_view, h, hfront.entries hn, own, List.map_append, List.map_append,
    lastContent_append, lastContent_append]
  cases hget : a.get ⟨none, n⟩ with
  | none => rfl
  | some v =>
    have hone : ∀ u : Str, lastContent n [attrOf ((⟨none, n⟩ : QName), u)] = some w ↔ u = w := by
      intro u
      have hname : (attrOf ((⟨none, n⟩ : QName), u)).name = n := rfl
      rw [lastContent, lastContent, Option.none_or, if_pos hname]
      unfold attrOf
      dsimp only
      split_ifs with hu
      · rw [hu]
        exact iff_of_false (by simp) (Ne.symm hw)
      · exact Option.some_inj
    rw [Option.or_eq_some_iff, Option.or_eq_some_iff]
    refine or_congr Iff.rfl (and_congr_right fun _ => ?_)
    exact (hone (g v)).trans ((hg v hget).trans (hone v).symm)

/-! ## What saving does to them -/

theorem entries_pop_of_ne {key : QName} (h : key.name ≠ n) : entries n (a.pop key).2 = entries n a := by
  unfold entries Attrib.pop
  rw [List.filter_filter]
  refine List.filter_congr fun e _ => ?_
  by_cases he : e.1.name = n
  · have hkey : e.1 ≠ key := fun hk => h (hk ▸ he)
    simp [he, hkey]
  · simp [he]

theorem entries_pop (n : Str) (a : Attrib) : entries n (a.pop ⟨none, n⟩).2 = foreign n a := by
  unfold foreign entries Attrib.pop
  rw [List.filter_filter, List.filter_filter]
  exact List.filter_congr fun _ _ => Bool.and_comm _ _

theorem entries_set_of_ne {key : QName} (h : key.name ≠ n) (value : Str) :
    entries n (a.set key value) = entries n a := by
  unfold entries Attrib.set
  dsimp only
  split_ifs
  · induction a.items with
    | nil => rfl
    | cons e items ih =>
      by_cases he : e.1 = key
      · subst he
        simp [h, ih]
      · simp [he, List.filter_cons, ih]
  · simp [h]

theorem items_set {key : QName} (h : a.get key = none) (value : Str) :
    (a.set key value).items = a.items ++ [(key, value)] := if_neg (Attrib.get_eq_none_iff.mp h)

theorem entries_setIf_of_ne {key : QName} (h : key.name ≠ n) (value : Option Str) :
    entries n (a.setIf key value) = entries n a := by
  cases value with
  | none => rfl
  | some value => exact entries_set_of_ne h value

theorem entries_setIf (h : a.get ⟨none, n⟩ = none) (value : Option Str) :
    entries n (a.setIf ⟨none, n⟩ value) =
      entries n a ++ (value.map (Prod.mk (⟨none, n⟩ : QName))).toList := by
  cases value with
  | none => exact (List.append_nil _).symm
  | some value =>
    have hset : entries n (a.set ⟨none, n⟩ value) = entries n a ++ [((⟨none, n⟩ : QName), value)] := by
      unfold entries
      rw [items_set h, List.filter_append]
      simp
    exact hset

theorem items_update {items : List (QName × Str)} (hnodup : (items.map Prod.fst).Nodup)
    (h : ∀ e ∈ items, a.get e.1 = none) : (a.update items).items = a.items ++ items := by
  induction items generalizing a with
  | nil => exact (List.append_nil _).symm
  | cons e items ih =>
    obtain ⟨hnotMem, hrest⟩ := List.nodup_cons.mp hnodup
    have hstep : ∀ e' ∈ items, (a.set e.1 e.2).get e'.1 = none := by
      intro e' he'
      have hne : e'.1 ≠ e.1 := fun heq => hnotMem (heq ▸ List.mem_map_of_mem he')
      rw [Attrib.get_set, if_neg hne]
      exact h e' (List.mem_cons_of_mem _ he')
    change ((a.set e.1 e.2).update items).items = _
    rw [ih hrest hstep, items_set (h e List.mem_cons_self), List.append_assoc]
    rfl

/-- What is set over nothing comes behind. -/
theorem entries_update (h : ∀ k, b.get k = none ∨ a.get k = none) :
    entries n (a.update b.items) = entries n a ++ entries n b := by
  have hfree : ∀ e ∈ b.items, a.get e.1 = none := by
    intro e he
    refine (h e.1).resolve_left fun hnone => ?_
    exact Attrib.get_eq_none_iff.mp hnone (List.mem_map_of_mem he)
  unfold entries
  rw [items_update b.nodup hfree, List.filter_append]

/-! ## Permissions -/

theorem getPermissions_bit (l : List XmlAttr) (i : Nat) :
    (getPermissions l).getLsbD i = true ↔ ∃ x ∈ l, (permissionOf x).getLsbD i = true := by
  have hfold : ∀ m : Mask, (l.foldl (fun permissions x => permissions ||| permissionOf x) m).getLsbD i = true ↔
      m.getLsbD i = true ∨ ∃ x ∈ l, (permissionOf x).getLsbD i = true := by
    induction l with
    | nil => simp
    | cons x l ih =>
      intro m
      rw [List.foldl_cons, ih]
      simp [or_assoc]
  have hzero : (0 : Mask).getLsbD i = false := by simp
  rw [getPermissions, hfold, hzero, or_iff_right Bool.false_ne_true]

theorem Saves.permissions (h : Saves f a b)
    (hf : ∀ k w, a.get k = some w → permissionOf (attrOf (k, f k w)) = permissionOf (attrOf (k, w))) :
    getPermissions b.view = getPermissions a.view := by
  refine BitVec.eq_of_getLsbD_eq fun i _ => ?_
  rw [Bool.eq_iff_iff, getPermissions_bit, getPermissions_bit]
  constructor
  · rintro ⟨x, hx, hbit⟩
    obtain ⟨⟨k, w⟩, he, rfl⟩ := List.mem_map.mp hx
    rw [Attrib.mem_items_iff, h k, Option.map_eq_some_iff] at he
    obtain ⟨v, hv, rfl⟩ := he
    exact ⟨attrOf (k, v), List.mem_map_of_mem (Attrib.mem_items_iff.mpr hv), hf k v hv ▸ hbit⟩
  · rintro ⟨x, hx, hbit⟩
    obtain ⟨⟨k, v⟩, he, rfl⟩ := List.mem_map.mp hx
    have hv := Attrib.mem_items_iff.mp he
    refine ⟨attrOf (k, f k v), List.mem_map_of_mem (Attrib.mem_items_iff.mpr ?_), (hf k v hv).symm ▸ hbit⟩
    rw [h k, hv]
    rfl

end

/-! ## Known attributes -/

/-- The known attributes are set one after the other, to what `g` makes of them. -/
def setAll (g : QName → Str → Str) (a : Attrib) (keys : List QName) (b : Attrib) : Attrib :=
  keys.foldl (fun b k => b.setIf k ((a.get k).map (g k))) b

def popAll (keys : List QName) (a : Attrib) : Attrib := keys.foldl (fun a k => (a.pop k).2) a

/-- What is written for an element that is read. -/
def rewritten (keys : List QName) (g : QName → Str → Str) (a : Attrib) : Attrib :=
  (setAll g a keys .empty).update (popAll keys a).items

section

variable {a b : Attrib} {g : QName → Str → Str} {keys : List QName} {n : Str}

@[simp] theorem get_updated (a b : Attrib) (k : QName) : (a.update b.items).get k = (b.get k).or (a.get k) :=
  Attrib.get_update b.nodup k

theorem get_setAll (k : QName) :
    (setAll g a keys b).get k = if k ∈ keys then ((a.get k).map (g k)).or (b.get k) else b.get k := by
  induction keys generalizing b with
  | nil => rfl
  | cons key keys ih =>
    refine ih.trans ?_
    rw [Attrib.get_setIf]
    by_cases hk : k = key
    · subst hk
      rw [if_pos rfl, if_pos List.mem_cons_self]
      split_ifs
      · rw [← Option.or_assoc, Option.or_self]
      · rfl
    · rw [if_neg hk]
      simp only [List.mem_cons, hk, false_or]

theorem items_popAll : (popAll keys a).items = a.items.filter (·.1 ∉ keys) := by
  induction keys generalizing a with
  | nil => simp [popAll]
  | cons key keys ih =>
    refine ih.trans ?_
    unfold Attrib.pop
    rw [List.filter_filter]
    refine List.filter_congr fun e _ => ?_
    simp [not_or, Bool.and_comm]

theorem get_popAll (k : QName) : (popAll keys a).get k = if k ∈ keys then none else a.get k := by
  have hmem : ∀ v, (k, v) ∈ (popAll keys a).items ↔ (k, v) ∈ a.items ∧ k ∉ keys := by
    intro v
    rw [items_popAll, List.mem_filter, decide_eq_true_eq]
  split_ifs with hk
  · rw [Attrib.get_eq_none_iff]
    intro hkey
    obtain ⟨⟨k', v⟩, he, rfl⟩ := List.mem_map.mp hkey
    exact ((hmem v).mp he).2 hk
  · exact Attrib.get_congr fun v => (hmem v).trans (and_iff_left hk)

theorem saves_rewritten (hg : ∀ k ∉ keys, ∀ v, g k v = v) : Saves g a (rewritten keys g a) := by
  intro k
  rw [rewritten, get_updated, get_popAll, get_setAll, Attrib.get_empty]
  split_ifs with hk
  · rw [Option.none_or, Option.or_none]
  · rw [Option.or_none]
    exact (Option.map_congr fun v _ => hg k hk v).trans Option.map_id' |>.symm

/-- Keys without a namespace. -/
def Plain (keys : List QName) : Prop := keys.Nodup ∧ ∀ k ∈ keys, k.ns = none

instance (keys : List QName) : Decidable (Plain keys) := inferInstanceAs (Decidable (_ ∧ _))

theorem entries_popAll (hkeys : Plain keys) :
    entries n (popAll keys a) = if ⟨none, n⟩ ∈ keys then foreign n a else entries n a := by
  have hentries : entries n (popAll keys a) = (entries n a).filter (·.1 ∉ keys) := by
    unfold entries
    rw [items_popAll, List.filter_filter, List.filter_filter]
    exact List.filter_congr fun _ _ => Bool.and_comm _ _
  have hname : ∀ e ∈ entries n a, e.1.name = n := fun e he => of_decide_eq_true (List.mem_filter.mp he).2
  have hmem : ∀ e ∈ entries n a, e.1 ∈ keys → e.1 = ⟨none, n⟩ := by
    intro e he hkey
    have hns := hkeys.2 _ hkey
    have hn := hname e he
    cases hq : e.1 with
    | mk ns name =>
      rw [hq] at hns hn
      cases hns
      cases hn
      rfl
  rw [hentries]
  split_ifs with hn
  · refine List.filter_congr fun e he => ?_
    rw [decide_eq_decide]
    exact not_congr ⟨hmem e he, fun heq => heq ▸ hn⟩
  · rw [List.filter_eq_self]
    intro e he
    refine decide_eq_true fun hkey => hn ?_
    rw [← hmem e he hkey]
    exact hkey

theorem Plain.name_ne {key : QName} (hns : key.ns = none) (hkey : key ≠ ⟨none, n⟩) : key.name ≠ n := by
  rintro rfl
  exact hkey (by rw [← hns])

theorem entries_setAll_of_notMem (hkeys : Plain keys) (hn : ⟨none, n⟩ ∉ keys) :
    entries n (setAll g a keys b) = entries n b := by
  induction keys generalizing b with
  | nil => rfl
  | cons key keys ih =>
    obtain ⟨hnodup, hns⟩ := hkeys
    rw [List.mem_cons, not_or] at hn
    have hplain : Plain keys := ⟨(List.nodup_cons.mp hnodup).2, fun k hk => hns k (List.mem_cons_of_mem _ hk)⟩
    have hname := Plain.name_ne (hns key List.mem_cons_self) (Ne.symm hn.1)
    exact (ih hplain hn.2).trans (entries_setIf_of_ne hname _)

theorem entries_setAll (hkeys : Plain keys) (hn : ⟨none, n⟩ ∈ keys) (hb : b.get ⟨none, n⟩ = none) :
    entries n (setAll g a keys b) =
      entries n b ++ ((a.get ⟨none, n⟩).map fun v => ((⟨none, n⟩ : QName), g ⟨none, n⟩ v)).toList := by
  induction keys generalizing b with
  | nil => exact absurd hn List.not_mem_nil
  | cons key keys ih =>
    obtain ⟨hnodup, hns⟩ := hkeys
    obtain ⟨hnotMem, hrest⟩ := List.nodup_cons.mp hnodup
    have hplain : Plain keys := ⟨hrest, fun k hk => hns k (List.mem_cons_of_mem _ hk)⟩
    change entries n (setAll g a keys (b.setIf key ((a.get key).map (g key)))) = _
    by_cases hkey : key = ⟨none, n⟩
    · subst hkey
      rw [entries_setAll_of_notMem hplain hnotMem, entries_setIf hb, Option.map_map]
      rfl
    · have hname := Plain.name_ne (hns key List.mem_cons_self) hkey
      rw [ih hplain ((List.mem_cons.mp hn).resolve_left (Ne.symm hkey)), entries_setIf_of_ne hname]
      rw [Attrib.get_setIf, if_neg (Ne.symm hkey)]
      exact hb

theorem disjoint_rewritten (k : QName) : (popAll keys a).get k = none ∨ (setAll g a keys .empty).get k = none := by
  rw [get_popAll, get_setAll]
  split_ifs
  · exact Or.inl rfl
  · exact Or.inr rfl

/-- **What is known comes first.** -/
theorem fronted_rewritten (hkeys : Plain keys) (hn : ⟨none, n⟩ ∈ keys) :
    Fronted n (g ⟨none, n⟩) a (rewritten keys g a) := by
  have hempty : entries n Attrib.empty = [] := rfl
  unfold Fronted rewritten
  rw [entries_update disjoint_rewritten, entries_setAll hkeys hn rfl, entries_popAll hkeys, if_pos hn, hempty,
    List.nil_append]

theorem entries_rewritten (hkeys : Plain keys) (hn : ⟨none, n⟩ ∉ keys) : entries n (rewritten keys g a) = entries n a := by
  have hempty : entries n Attrib.empty = [] := rfl
  unfold rewritten
  rw [entries_update disjoint_rewritten, entries_setAll_of_notMem hkeys hn, entries_popAll hkeys, if_neg hn, hempty,
    List.nil_append]

end

/-! ## The elements -/

/-- What becomes of flags. -/
def spell (keys : List QName) (yes no : Str) (k : QName) (v : Str) : Str :=
  if k ∈ keys then if isYes v then yes else no else v

/-- A flag that is taken for a yes is spelled as the server wants it. -/
def Spelled (keys : List QName) (yes : Str) (a : Attrib) : Prop :=
  ∀ e ∈ a.items, e.1 ∈ keys → isYes e.2 = true → e.2 = yes

instance (keys : List QName) (yes : Str) (a : Attrib) : Decidable (Spelled keys yes a) :=
  inferInstanceAs (Decidable (∀ e ∈ a.items, _))

def flagKeys : List QName := [plain "READ", plain "EXECUTE", plain "BROWSE", plain "DELETE", plain "WRITE"]

/-- The flags that the server looks at. -/
def grantKeys : List QName := [plain "READ", plain "EXECUTE", plain "BROWSE", plain "WRITE"]

def userKeys : List QName := plain "name" :: plain "password" :: flagKeys

def conditionKeys : List QName := [plain "name", plain "value", plain "not", plain "regex"]

section

variable {keys : List QName} {yes no : Str} {k : QName} {a : Attrib} {v : Str}

theorem map_spell_of_mem (hk : k ∈ keys) (yes no : Str) (o : Option Str) :
    o.map (spell keys yes no k) = (o.map isYes).map fun flag => if flag then yes else no := by
  rw [Option.map_map]
  exact Option.map_congr fun _ _ => if_pos hk

theorem map_spell_of_notMem (hk : k ∉ keys) (yes no : Str) (o : Option Str) : o.map (spell keys yes no k) = o :=
  (Option.map_congr fun _ _ => if_neg hk).trans Option.map_id'

theorem Spelled.spell_eq_iff (h : Spelled keys yes a) (hk : k ∈ keys) (hyes : isYes yes = true) (hno : no ≠ yes)
    (hv : a.get k = some v) : spell keys yes no k v = yes ↔ v = yes := by
  unfold spell
  rw [if_pos hk]
  by_cases hflag : isYes v = true
  · rw [if_pos hflag]
    exact iff_of_true rfl (h (k, v) (Attrib.mem_items_iff.mpr hv) hk hflag)
  · rw [if_neg hflag]
    refine iff_of_false hno ?_
    rintro rfl
    exact hflag hyes

theorem mem_flagKeys_iff : k ∈ flagKeys ↔ k ∈ grantKeys ∨ k = plain "DELETE" := by
  simp only [flagKeys, grantKeys, List.mem_cons, List.not_mem_nil, or_false, or_assoc]
  rw [or_comm (a := k = plain "DELETE")]

theorem Spelled.permissionOf_eq (h : Spelled grantKeys (ascii "YES") a) (hv : a.get k = some v) :
    permissionOf (attrOf (k, spell flagKeys (ascii "YES") (ascii "NO") k v)) = permissionOf (attrOf (k, v)) := by
  by_cases hgrant : k ∈ grantKeys
  · have hflag : k ∈ flagKeys := mem_flagKeys_iff.mpr (.inl hgrant)
    have hspell : spell flagKeys (ascii "YES") (ascii "NO") k v = spell grantKeys (ascii "YES") (ascii "NO") k v := by
      unfold spell
      rw [if_pos hflag, if_pos hgrant]
    have hcontent : ∀ w : Str, (attrOf (k, w)).content = some (ascii "YES") ↔ w = ascii "YES" := by
      intro w
      unfold attrOf
      dsimp only
      split_ifs with hw
      · rw [hw]
        exact iff_of_false (by simp) (by decide)
      · exact Option.some_inj
    have hiff := h.spell_eq_iff hgrant (by decide) (show ascii "NO" ≠ ascii "YES" by decide) hv
    rw [hspell]
    unfold permissionOf
    have hyes : (attrOf (k, spell grantKeys (ascii "YES") (ascii "NO") k v)).content = some (ascii "YES") ↔
        (attrOf (k, v)).content = some (ascii "YES") := (hcontent _).trans (hiff.trans (hcontent v).symm)
    have hname : (attrOf (k, spell grantKeys (ascii "YES") (ascii "NO") k v)).name = (attrOf (k, v)).name := rfl
    simp only [ne_eq, hyes, hname]
  · by_cases hflag : k ∈ flagKeys
    · have hdelete : k = plain "DELETE" := (mem_flagKeys_iff.mp hflag).resolve_left hgrant
      have hzero : ∀ w : Str, permissionOf (attrOf (plain "DELETE", w)) = 0 := by
        intro w
        unfold permissionOf
        simp +decide [attrOf, plain]
      rw [hdelete, hzero, hzero]
    · rw [spell, if_neg hflag]

end

section

variable (dict : DictOrder) (a : Attrib) (children : Forest)

/-- To take one key away does not touch another. -/
theorem get_pop_of_ne {a : Attrib} {k key : QName} (h : k ≠ key) : (a.pop key).2.get k = a.get k := by
  rw [Attrib.get_pop, if_neg h]

theorem flags_attrib (known : Attrib) :
    ((Flags.pop a).1.set known).update (Flags.pop a).2.items =
      (setAll (spell flagKeys (ascii "YES") (ascii "NO")) a flagKeys known).update (popAll flagKeys a).items := by
  have hspell : ∀ k ∈ flagKeys, (a.get k).map (spell flagKeys (ascii "YES") (ascii "NO") k) =
      ((a.get k).map isYes).map Flags.yesOrNo := fun k hk => map_spell_of_mem hk _ _ _
  simp only [setAll, popAll, flagKeys, List.foldl_cons, List.foldl_nil]
  simp only [flagKeys, List.forall_mem_cons] at hspell
  obtain ⟨hread, hexecute, hbrowse, hdelete, hwrite, -⟩ := hspell
  rw [hread, hexecute, hbrowse, hdelete, hwrite]
  unfold Flags.pop Flags.set
  dsimp only [Attrib.pop_fst]
  simp (disch := decide) only [get_pop_of_ne]

theorem permission_attrib : ((SecurityElement.readPermission a children).toLxmlElement dict).attrib =
    rewritten flagKeys (spell flagKeys (ascii "YES") (ascii "NO")) a := flags_attrib a .empty

theorem user_attrib : ((SecurityElement.readUser a children).toLxmlElement dict).attrib =
    rewritten userKeys (spell flagKeys (ascii "YES") (ascii "NO")) a := by
  have hspell : ∀ k ∈ [plain "name", plain "password"], ∀ o : Option Str,
      o.map (spell flagKeys (ascii "YES") (ascii "NO") k) = o :=
    fun k hk => map_spell_of_notMem (by revert k; decide) _ _
  simp only [List.forall_mem_cons] at hspell
  obtain ⟨hname, hpassword, -⟩ := hspell
  have hflags : ∀ k ∈ flagKeys, ((a.pop (plain "name")).2.pop (plain "password")).2.get k = a.get k := by
    intro k hk
    rw [get_pop_of_ne (fun h => absurd (h ▸ hk) (by decide)), get_pop_of_ne (fun h => absurd (h ▸ hk) (by decide))]
  simp only [flagKeys, List.forall_mem_cons] at hflags
  obtain ⟨hread, hexecute, hbrowse, hdelete, hwrite, -⟩ := hflags
  refine (flags_attrib ((a.pop (plain "name")).2.pop (plain "password")).2 ((Attrib.empty.setIf (plain "name")
    (a.get (plain "name"))).setIf (plain "password") ((a.pop (plain "name")).2.get (plain "password")))).trans ?_
  unfold rewritten setAll popAll userKeys
  simp only [flagKeys, List.foldl_cons, List.foldl_nil] at hname hpassword ⊢
  rw [hread, hexecute, hbrowse, hdelete, hwrite, hname, hpassword, get_pop_of_ne (by decide)]

theorem condition_attrib (elements : List SecurityElement × Forest) :
    ((SecurityElement.readCondition a elements).toLxmlElement dict).attrib =
      rewritten conditionKeys (spell [plain "not", plain "regex"] (ascii "yes") (ascii "no")) a := by
  have hother : ∀ k ∉ [plain "not", plain "regex"], ∀ o : Option Str,
      o.map (spell [plain "not", plain "regex"] (ascii "yes") (ascii "no") k) = o := fun k hk => map_spell_of_notMem hk _ _
  have hflag : ∀ k ∈ [plain "not", plain "regex"], ∀ o : Option Str,
      o.map (spell [plain "not", plain "regex"] (ascii "yes") (ascii "no") k) =
        (o.map isYes).map fun flag => if flag then ascii "yes" else ascii "no" := fun k hk => map_spell_of_mem hk _ _
  have hname := hother (plain "name") (by decide)
  have hvalue := hother (plain "value") (by decide)
  have hnot := hflag (plain "not") (by decide)
  have hregex := hflag (plain "regex") (by decide)
  simp only [rewritten, setAll, popAll, conditionKeys, List.foldl_cons, List.foldl_nil, hname, hvalue, hnot, hregex]
  simp (disch := decide) only [SecurityElement.readCondition, SecurityElement.toLxmlElement, Attrib.pop_fst, get_pop_of_ne]

theorem return_attrib : ((SecurityElement.readReturn a children).toLxmlElement dict).attrib =
    rewritten [plain "value"] (fun _ v => v) a := by
  have hid : (a.get (plain "value")).map (fun v => v) = a.get (plain "value") := Option.map_id'
  simp only [rewritten, setAll, popAll, List.foldl_cons, List.foldl_nil, hid, SecurityElement.readReturn,
    SecurityElement.toLxmlElement, Attrib.pop_fst]

theorem definition_attrib {definitions : Except Forest (List Definition × Forest)} {definition : Definition}
    (h : Definition.fromLxmlElement a children definitions = .ok definition) :
    (definition.toLxmlElement dict).attrib = Definition.attrib dict (a.get (plain "name")) (a.pop (plain "name")).2 := by
  unfold Definition.fromLxmlElement at h
  dsimp only at h
  split at h
  · cases h
    rw [Definition.toLxmlElement]
    rfl
  · split at h
    · cases h
    · split_ifs at h
      cases h
      rw [Definition.toLxmlElement]
      rfl

/-- The order of the `dict` is not known, and the name comes last. -/
theorem entries_definition (n : Str) :
    ∃ l, l.Perm (entries n (a.pop (plain "name")).2) ∧
      entries n (Definition.attrib dict (a.get (plain "name")) (a.pop (plain "name")).2) =
        l ++ if ascii "name" = n then (own (ascii "name") a).toList else [] := by
  have hnone : (a.pop (plain "name")).2.get (plain "name") = none := by rw [Attrib.get_pop, if_pos rfl]
  generalize (a.pop (plain "name")).2 = rest at hnone ⊢
  have hperm := dict.perm rest.items
  have hnodup : ((dict.order rest.items).map Prod.fst).Nodup := (hperm.map _).nodup_iff.mpr rest.nodup
  have hitems : (Attrib.empty.update (dict.order rest.items)).items = dict.order rest.items :=
    items_update hnodup fun _ _ => rfl
  have hentries : entries n (Attrib.empty.update (dict.order rest.items)) =
      (dict.order rest.items).filter (·.1.name = n) := by
    unfold entries
    rw [hitems]
  refine ⟨_, hperm.filter _, ?_⟩
  unfold Definition.attrib
  split_ifs with hn
  · subst hn
    have hfree : (Attrib.empty.update (dict.order rest.items)).get (plain "name") = none := by
      rw [Attrib.get_update hnodup, Attrib.get_congr fun v => hperm.mem_iff, hnone]
      rfl
    rw [← hentries]
    exact entries_setIf hfree _
  · rw [entries_setIf_of_ne (show (plain "name").name ≠ n from hn), hentries, List.append_nil]

/-- Of what is not `k` there is one at most, and it comes first. -/
theorem split_behind {k : QName} {es : List (QName × Str)} (hpairs : es.Pairwise fun _ e' => e'.1 = k) :
    (es.filter (·.1 ≠ k)).length ≤ 1 ∧ es.filter (·.1 ≠ k) ++ es.filter (·.1 = k) = es := by
  cases es with
  | nil => exact ⟨Nat.zero_le 1, rfl⟩
  | cons e es =>
    have hrest := (List.pairwise_cons.mp hpairs).1
    have hnone : es.filter (·.1 ≠ k) = [] := by
      rw [List.filter_eq_nil_iff]
      exact fun e' he' hne => of_decide_eq_true hne (hrest e' he')
    have hall : es.filter (·.1 = k) = es := by
      rw [List.filter_eq_self]
      exact fun e' he' => decide_eq_true (hrest e' he')
    rw [List.filter_cons, List.filter_cons, hnone, hall]
    by_cases he : e.1 = k
    · simp [he]
    · simp [he]

theorem perm_short {α : Type} {l l' : List α} (hperm : l.Perm l') (hshort : l'.length ≤ 1) : l = l' := by
  cases l' with
  | nil => exact hperm.eq_nil
  | cons e rest =>
    obtain rfl : rest = [] := List.length_eq_zero_iff.mp (by simpa using hshort)
    exact List.perm_singleton.mp hperm

/-- **A definition keeps its name and its value** where no order is needed for them. -/
theorem definition_content {definitions : Except Forest (List Definition × Forest)} {definition : Definition}
    (h : Definition.fromLxmlElement a children definitions = .ok definition) (hname : NameBehind a) {n : Str}
    (hn : n = ascii "name" ∨ n = ascii "value") :
    lastContent n (definition.toLxmlElement dict).attrib.view = lastContent n a.view := by
  obtain ⟨l, hl, hentries⟩ := entries_definition dict a n
  have hpairs : (entries n a).Pairwise fun _ e' => e'.1 = plain "name" := by
    refine (entries_pairwise hname).imp fun hpair => ?_
    exact hpair.1 (hpair.2.1.trans hpair.2.2.symm) (hpair.2.1.symm ▸ hn)
  obtain ⟨hshort, hsplit⟩ := split_behind hpairs
  refine content_congr ?_
  rw [definition_attrib dict a children h, hentries]
  by_cases hown : ascii "name" = n
  · subst hown
    have hforeign := entries_pop (ascii "name") a
    rw [show plain "name" = ⟨none, ascii "name"⟩ from rfl] at hl hshort hsplit
    rw [hforeign] at hl
    rw [if_pos rfl, ← filter_own, perm_short hl hshort]
    exact hsplit
  · have hnone : ∀ e ∈ entries n a, e.1 ≠ plain "name" := by
      intro e he heq
      have hlocal : e.1.name = n := of_decide_eq_true (List.mem_filter.mp he).2
      exact hown (by rw [← hlocal, heq]; rfl)
    have hall : (entries n a).filter (·.1 ≠ plain "name") = entries n a := by
      rw [List.filter_eq_self]
      exact fun e he => decide_eq_true (hnone e he)
    rw [entries_pop_of_ne (show (plain "name").name ≠ n from hown)] at hl
    rw [hall] at hshort
    rw [if_neg hown, List.append_nil, perm_short hl hshort]

end

end MyServer.Pycontrollib
