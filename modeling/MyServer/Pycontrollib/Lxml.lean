import MyServer.Security.Policy

/-!
# Elements as lxml has them

The children of an element are its elements, its comments and its processing instructions. The text between
them belongs to the one in front of it, or to the element.
-/

open MyServer.Security

namespace MyServer.Pycontrollib

structure QName where
  ns : Option Str
  name : Str
deriving DecidableEq

/-- A tag or a key without a namespace. -/
def plain (s : String) : QName := ⟨none, ascii s⟩

structure Attrib where
  items : List (QName × Str)
  nodup : (items.map Prod.fst).Nodup

namespace Attrib

variable (a : Attrib) (key : QName)

def empty : Attrib := ⟨[], List.nodup_nil⟩

def keys : List QName := a.items.map Prod.fst

def get : Option Str := (a.items.find? (·.1 = key)).map Prod.snd

/-- `pop (key, None)`. -/
def pop : Option Str × Attrib :=
  (a.get key, ⟨a.items.filter (·.1 ≠ key), a.nodup.sublist (List.filter_sublist.map _)⟩)

def set (value : Str) : Attrib where
  items := if key ∈ a.keys then a.items.map fun e => if e.1 = key then (key, value) else e
    else a.items ++ [(key, value)]
  nodup := by
    split_ifs with hmem
    · have hkeys : (a.items.map fun e => if e.1 = key then (key, value) else e).map Prod.fst =
          a.items.map Prod.fst := by
        rw [List.map_map]
        refine List.map_congr_left fun e _ => ?_
        dsimp only [Function.comp]
        split_ifs with he
        · exact he.symm
        · rfl
      rw [hkeys]
      exact a.nodup
    · rw [List.map_append, List.nodup_append]
      refine ⟨a.nodup, List.nodup_singleton _, fun k hk k' hk' heq => hmem ?_⟩
      obtain rfl : k' = key := List.mem_singleton.mp hk'
      exact heq ▸ hk

/-- Set when it is not `None`. -/
def setIf (value : Option Str) : Attrib := value.elim a (a.set key)

/-- `for key, value in items: root.set (key, value)`. -/
def update (items : List (QName × Str)) : Attrib := items.foldl (fun a e => a.set e.1 e.2) a

/-! ## As maps -/

variable {a key}

theorem mem_items_iff {k : QName} {v : Str} : (k, v) ∈ a.items ↔ a.get k = some v := by
  obtain ⟨items, hnodup⟩ := a
  unfold get
  dsimp only
  induction items with
  | nil => simp
  | cons e items ih =>
    obtain ⟨hnotMem, hnodup⟩ := List.nodup_cons.mp hnodup
    rw [List.mem_cons, List.find?_cons, ih hnodup]
    by_cases hk : e.1 = k
    · rw [decide_eq_true hk, Option.map_some, Option.some_inj]
      constructor
      · rintro (rfl | hfound)
        · rfl
        · rw [← ih hnodup] at hfound
          exact absurd (hk ▸ List.mem_map_of_mem hfound) hnotMem
      · rintro rfl
        exact Or.inl (by rw [← hk])
    · rw [decide_eq_false hk]
      refine or_iff_right ?_
      rintro rfl
      exact hk rfl

theorem get_eq_none_iff {k : QName} : a.get k = none ↔ k ∉ a.keys := by
  constructor
  · intro h hmem
    obtain ⟨⟨k', v⟩, he, rfl⟩ := List.mem_map.mp hmem
    rw [mem_items_iff.mp he] at h
    cases h
  · intro h
    cases hget : a.get k with
    | none => rfl
    | some v => exact absurd (List.mem_map_of_mem (mem_items_iff.mpr hget)) h

theorem get_congr {b : Attrib} {k k' : QName} (h : ∀ v, (k, v) ∈ a.items ↔ (k', v) ∈ b.items) : a.get k = b.get k' := by
  refine Option.ext fun v => ?_
  rw [← mem_items_iff, ← mem_items_iff]
  exact h v

@[simp] theorem get_empty (k : QName) : empty.get k = none := rfl

@[simp] theorem pop_fst : (a.pop key).1 = a.get key := rfl

@[simp] theorem get_pop (k : QName) : (a.pop key).2.get k = if k = key then none else a.get k := by
  have hmem : ∀ v, (k, v) ∈ (a.pop key).2.items ↔ (k, v) ∈ a.items ∧ k ≠ key := by
    intro v
    unfold pop
    rw [List.mem_filter, decide_eq_true_eq]
  split_ifs with hk
  · rw [get_eq_none_iff]
    intro hkey
    obtain ⟨⟨k', v⟩, he, rfl⟩ := List.mem_map.mp hkey
    exact ((hmem v).mp he).2 hk
  · exact get_congr fun v => (hmem v).trans (and_iff_left hk)

@[simp] theorem get_set (value : Str) (k : QName) :
    (a.set key value).get k = if k = key then some value else a.get k := by
  have hmem : ∀ v, (k, v) ∈ (a.set key value).items ↔ k = key ∧ v = value ∨ k ≠ key ∧ (k, v) ∈ a.items := by
    intro v
    unfold set
    dsimp only
    split_ifs with hkey
    · rw [List.mem_map]
      constructor
      · rintro ⟨e, he, heq⟩
        split_ifs at heq with hk
        · cases heq
          exact Or.inl ⟨rfl, rfl⟩
        · subst heq
          exact Or.inr ⟨hk, he⟩
      · rintro (⟨rfl, rfl⟩ | ⟨hk, he⟩)
        · obtain ⟨e, he, hek⟩ := List.mem_map.mp hkey
          exact ⟨e, he, if_pos hek⟩
        · exact ⟨(k, v), he, if_neg hk⟩
    · rw [List.mem_append, List.mem_singleton, Prod.mk.injEq]
      constructor
      · rintro (he | heq)
        · exact Or.inr ⟨fun hk => hkey (hk ▸ List.mem_map_of_mem he), he⟩
        · exact Or.inl heq
      · rintro (heq | ⟨-, he⟩)
        · exact Or.inr heq
        · exact Or.inl he
  split_ifs with hk
  · exact mem_items_iff.mp ((hmem value).mpr (Or.inl ⟨hk, rfl⟩))
  · refine get_congr fun v => (hmem v).trans ?_
    rw [or_iff_right fun h => hk h.1, and_iff_right hk]

@[simp] theorem get_setIf (value : Option Str) (k : QName) :
    (a.setIf key value).get k = if k = key then value.or (a.get k) else a.get k := by
  cases value with
  | none => exact (ite_self _).symm
  | some v => exact get_set v k

/-- What is set later is not set over anything but what was there before. -/
theorem get_update {items : List (QName × Str)} (hnodup : (items.map Prod.fst).Nodup) (k : QName) :
    (a.update items).get k = ((⟨items, hnodup⟩ : Attrib).get k).or (a.get k) := by
  induction items generalizing a with
  | nil => rfl
  | cons e items ih =>
    obtain ⟨hnotMem, hrest⟩ := List.nodup_cons.mp hnodup
    have hstep : (⟨e :: items, hnodup⟩ : Attrib).get k =
        if k = e.1 then some e.2 else (⟨items, hrest⟩ : Attrib).get k := by
      unfold get
      rw [List.find?_cons]
      by_cases hk : e.1 = k
      · rw [decide_eq_true hk, if_pos hk.symm]
        rfl
      · rw [decide_eq_false hk, if_neg (Ne.symm hk)]
    change ((a.set e.1 e.2).update items).get k = _
    rw [ih hrest, hstep, get_set]
    split_ifs with hk
    · have hnone : (⟨items, hrest⟩ : Attrib).get k = none := get_eq_none_iff.mpr (hk ▸ hnotMem)
      rw [hnone]
      rfl
    · rfl

end Attrib

/-- The children of an element, from one of them on. A comment stands for a processing instruction too. -/
inductive Forest where
  | nil
  | comment (tail : Str) (next : Forest)
  | element (tag : QName) (attrib : Attrib) (text : Str) (children : Forest) (tail : Str) (next : Forest)

structure Element where
  tag : QName
  attrib : Attrib
  text : Str
  children : Forest

/-- A new element, without a tail, in front of others. -/
def Element.inFront (e : Element) (next : Forest) : Forest := .element e.tag e.attrib e.text e.children [] next

/-! ## As the server reads them -/

/-- An attribute that is empty has no children. Its name is the local one. -/
def attrOf (e : QName × Str) : XmlAttr := ⟨e.1.name, if e.2 = [] then none else some e.2⟩

def Attrib.view (a : Attrib) : List XmlAttr := a.items.map attrOf

def textNode (text : Str) (next : XmlNode) : XmlNode := if text = [] then next else .other next

def Forest.view : Forest → XmlNode
  | .nil => .null
  | .comment tail next => .other (textNode tail next.view)
  | .element tag attrib text children tail next =>
    .element tag.name attrib.view (textNode text children.view) (textNode tail next.view)

/-- The document of which this is the root. -/
def Element.view (e : Element) : XmlNode := (e.inFront .nil).view

end MyServer.Pycontrollib
