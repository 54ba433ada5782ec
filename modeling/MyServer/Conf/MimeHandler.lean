import MyServer.HashMap.Clear
import MyServer.Log.RotatedName

/-!
# The MIME types

`XmlMimeHandler` (xml_mime_handler.cpp): a vector of records, and two indexes that hold positions in it.
A position 0 stands for no record.
-/

namespace MyServer

/-- What of a `MimeRecord` a file is looked up by. `R` is `Regex`. -/
structure MimeRecord (R : Type) where
  extensions : List Str
  pathRegex : List R
deriving DecidableEq

structure XmlMimeHandler (R : Type) where
  extIndex : HashMap Int
  records : List (Option (MimeRecord R))
  pathRegex : List (R × Int)
  loaded : Bool

namespace XmlMimeHandler

variable {R : Type}

/-- A `u_long` in an `int`. -/
def asInt (n : Nat) : Int := (BitVec.ofNat 32 n).toInt

def new : Option (XmlMimeHandler R) :=
  (HashMap.new 0 .default).map fun extIndex => { extIndex, records := [], pathRegex := [], loaded := false }

/-- The first loop of `addRecord`. -/
def putExtensions (position : Nat) : List Str → HashMap Int → Option (HashMap Int)
  | [], extIndex => some extIndex
  | ext :: exts, extIndex =>
    (extIndex.put ext (asInt position)).bind fun old => putExtensions position exts old.2

/-- `none` is the exception of a table that cannot grow. -/
def addRecord (s : XmlMimeHandler R) (mr : MimeRecord R) : Option (XmlMimeHandler R) :=
  let position := s.records.length
  (putExtensions position mr.extensions s.extIndex).map fun extIndex => { s with
    extIndex
    records := s.records ++ [some mr]
    pathRegex := s.pathRegex ++ mr.pathRegex.map fun regex => (regex, asInt position) }

/-- The first record is not used to store information. -/
def clearRecords (s : XmlMimeHandler R) : XmlMimeHandler R :=
  { s with pathRegex := [], records := [none], extIndex := s.extIndex.clear }

def addRecords (s : XmlMimeHandler R) : List (MimeRecord R) → Option (XmlMimeHandler R)
  | [] => some s
  | rc :: rcs => (s.addRecord rc).bind fun s => s.addRecords rcs

/-- The records are those that `readRecord` makes of the document. -/
def load (s : XmlMimeHandler R) (rcs : List (MimeRecord R)) : Option (XmlMimeHandler R) :=
  (s.clearRecords.addRecords rcs).map fun s => { s with loaded := true }

def clean (s : XmlMimeHandler R) : XmlMimeHandler R :=
  if s.loaded then { s with loaded := false }.clearRecords else s

/-- `if (pos) return records[pos]; return NULL;` with the position beside the record. A negative `int` is a
`u_long` outside the vector. -/
def recordAt (s : XmlMimeHandler R) (pos : Int) : Option (Option (Nat × MimeRecord R)) :=
  if pos = 0 then some none
  else if pos < 0 then none
  else s.records[pos.toNat]?.map fun mr => mr.map (Prod.mk pos.toNat)

/-- `exec regex filename` is `regex->exec (filename, 1, &pm, 0) == 0`. -/
def getMIME (exec : R → Str → Bool) (s : XmlMimeHandler R) (filename : Str) :
    Option (Option (Nat × MimeRecord R)) :=
  let pos := match s.pathRegex.find? fun pr => exec pr.1 (cstr filename) with
    | some pr => pr.2
    | none => 0
  if pos = 0 then (s.extIndex.get (Rotation.getFileExt (cstr filename))).bind s.recordAt
  else s.recordAt pos

/-! ## Calls -/

inductive Call (R : Type)
  | load (rcs : List (MimeRecord R))
  | addRecord (mr : MimeRecord R)
  | clean

def step (s : XmlMimeHandler R) : Call R → Option (XmlMimeHandler R)
  | .load rcs => s.load rcs
  | .addRecord mr => s.addRecord mr
  | .clean => some s.clean

/-- A handler after its calls. -/
def after (calls : List (Call R)) : Option (XmlMimeHandler R) := new.bind (Safety.run step calls)

/-! ## What it holds -/

/-- The records since the last clear. -/
structure Held (R : Type) where
  records : List (MimeRecord R)
  cleared : Bool
  loaded : Bool

namespace Held

/-- The last place that `p` holds at. -/
def lastIdx {α : Type} (p : α → Bool) : List α → Option Nat
  | [] => none
  | a :: l => ((lastIdx p l).map (· + 1)).or (if p a then some 0 else none)

def call (d : Held R) : Call R → Held R
  | .load rcs => ⟨rcs, true, true⟩
  | .addRecord mr => { d with records := d.records ++ [mr] }
  | .clean => if d.loaded then ⟨[], true, false⟩ else d

def after (calls : List (Call R)) : Held R := calls.foldl call ⟨[], false, false⟩

/-- Where the first of the records is. -/
def base (d : Held R) : Nat := if d.cleared then 1 else 0

variable (exec : R → Str → Bool) (filename : Str)

def matching (d : Held R) : Option Nat :=
  d.records.findIdx? fun mr => mr.pathRegex.any fun regex => exec regex (cstr filename)

def listing (d : Held R) (ext : Str) : Option Nat := lastIdx (fun mr => mr.extensions.contains ext) d.records

/-- The first record with a regular expression that matches, or else the last that lists the extension. -/
def wanted (d : Held R) : Option (Nat × MimeRecord R) :=
  ((d.matching exec filename).or (d.listing (Rotation.getFileExt (cstr filename)))).bind fun i =>
    d.records[i]?.map (Prod.mk (d.base + i))

end Held

/-! ## Places -/

theorem asInt_eq {n : Nat} (h : n < 2 ^ 31) : asInt n = n := by
  have hn : (BitVec.ofNat 32 n).toNat = n := by
    rw [BitVec.toNat_ofNat]
    exact Nat.mod_eq_of_lt (by omega)
  rw [asInt, BitVec.toInt_eq_toNat_of_lt (by omega), hn]

theorem asInt_lt (n : Nat) : asInt n < 2 ^ 31 := by
  unfold asInt
  have h := @BitVec.toInt_lt 32 (BitVec.ofNat 32 n)
  omega

namespace Held

theorem lastIdx_snoc {α : Type} (p : α → Bool) (l : List α) (a : α) :
    lastIdx p (l ++ [a]) = if p a then some l.length else lastIdx p l := by
  induction l with
  | nil => rfl
  | cons b l ih =>
    rw [List.cons_append, lastIdx, ih, List.length_cons]
    cases p a <;> simp [lastIdx]

theorem lastIdx_lt {α : Type} {p : α → Bool} {l : List α} {i : Nat} (h : lastIdx p l = some i) : i < l.length := by
  induction l generalizing i with
  | nil => cases h
  | cons a l ih =>
    rw [lastIdx, Option.or_eq_some_iff] at h
    rw [List.length_cons]
    rcases h with h | ⟨-, h⟩
    · obtain ⟨j, hj, rfl⟩ := Option.map_eq_some_iff.mp h
      have := ih hj
      omega
    · split_ifs at h
      cases h
      omega

end Held

/-! ## The index of extensions -/

/-- The table is the finite map, or it has lost its buckets and answers as an empty one. -/
def Tracks (h : HashMap Int) (m : HashMap.Mapping Int) : Prop :=
  HashMap.Counted (h, m) ∨ HashMap.Gone h ∧ h.mask < h.map.size ∧ h.mask < h.capacity ∧ m = ∅

theorem Tracks.get {h : HashMap Int} {m : HashMap.Mapping Int} (ht : Tracks h m) (key : Str) :
    h.get key = some ((m.lookup key).getD 0) := by
  rcases ht with hc | ⟨hg, hmap, -, rfl⟩
  · exact HashMap.get_refines hc.refines key
  · have hslot : h.slot key = some (HashMap.hash key &&& h.mask) := by
      have hle : HashMap.hash key &&& h.mask ≤ h.mask := Nat.and_le_right
      have hstale := hg.stale (HashMap.hash key &&& h.mask)
      unfold HashMap.slot
      exact if_pos ⟨by omega, by omega⟩
    rw [HashMap.get, hslot, Option.map_some, hg.live]
    rfl

theorem Tracks.put {h h' : HashMap Int} {m : HashMap.Mapping Int} {key : Str} {value old : Int} (ht : Tracks h m)
    (hput : h.put key value = some (old, h')) : Tracks h' (m.insert key value) := by
  rcases ht with hc | ⟨hg, -⟩
  · have hop : HashMap.Unwrapped (h, m) (.put key value) := nofun
    have hstep : HashMap.stepBoth (h, m) (.put key value) = some (h', m.insert key value) := by
      rw [HashMap.stepBoth, HashMap.step, hput]
      rfl
    exact Or.inl (hc.step hop hstep)
  · rw [hg.put_eq_none] at hput
    cases hput

theorem Tracks.clear {h : HashMap Int} {m : HashMap.Mapping Int} (ht : Tracks h m) : Tracks h.clear ∅ := by
  have hmask : h.clear.mask = h.mask := by
    unfold HashMap.clear
    dsimp only
    split_ifs <;> rfl
  have hsize : h.mask < h.map.size → h.mask < h.capacity → h.clear.mask < h.clear.map.size := by
    rw [hmask]
    unfold HashMap.clear
    dsimp only
    split_ifs
    · exact fun _ h => h
    · exact fun h _ => h
  have hcapacity := HashMap.clear_capacity h
  rcases ht with hc | ⟨hg, hmap, hcap, rfl⟩
  · by_cases hwrap : h.offset + 1 < 2 ^ 32
    · have hop : HashMap.Unwrapped (h, m) .clear := fun _ => hwrap
      exact Or.inl (hc.step hop rfl)
    · have hinv := hc.refines.inv
      have hpos := hinv.capacity_pos
      have hlt : h.mask < h.capacity := by
        have hm : h.mask = 2 ^ h.power - 1 := hinv.mask
        have hcp : h.capacity = 2 ^ h.power := hinv.capacity
        have hpos : 0 < h.capacity := hpos
        omega
      have hoff : h.offset < 2 ^ 32 := hc.offset_lt
      have hms : h.map.size = h.capacity := hinv.map_size
      exact Or.inr ⟨HashMap.clear_gone (by omega), hsize (by omega) hlt, by omega, rfl⟩
  · exact Or.inr ⟨hg.clear, hsize hmap hcap, by omega, rfl⟩

/-! ## The invariant -/

/-- The positions of the extensions of one record, and of a list of records. -/
def enter (position : Nat) (exts : List Str) (m : HashMap.Mapping Int) : HashMap.Mapping Int :=
  exts.foldl (fun m ext => m.insert ext (asInt position)) m

theorem lookup_enter (position : Nat) (exts : List Str) (m : HashMap.Mapping Int) (key : Str) :
    (enter position exts m).lookup key = if key ∈ exts then some (asInt position) else m.lookup key := by
  induction exts generalizing m with
  | nil => simp [enter]
  | cons ext exts ih =>
    change (enter position exts (m.insert ext (asInt position))).lookup key = _
    rw [ih, HashMap.lookup_insert_eq]
    by_cases hkey : key = ext <;> by_cases hmem : key ∈ exts <;> simp [hkey, hmem]

theorem putExtensions_tracks {position : Nat} {exts : List Str} {h h' : HashMap Int} {m : HashMap.Mapping Int}
    (ht : Tracks h m) (hput : putExtensions position exts h = some h') : Tracks h' (enter position exts m) := by
  induction exts generalizing h m with
  | nil =>
    cases hput
    exact ht
  | cons ext exts ih =>
    obtain ⟨⟨old, h₁⟩, hext, hput⟩ := Option.bind_eq_some_iff.mp hput
    exact ih (ht.put hext) hput

/-- The regular expressions of the records, each with the place of its record. -/
def regexes (base : Nat) (records : List (MimeRecord R)) : List (R × Int) :=
  (records.zipIdx base).flatMap fun r => r.1.pathRegex.map fun regex => (regex, asInt r.2)

theorem regexes_snoc (base : Nat) (records : List (MimeRecord R)) (mr : MimeRecord R) :
    regexes base (records ++ [mr]) =
      regexes base records ++ mr.pathRegex.map fun regex => (regex, asInt (base + records.length)) := by
  rw [regexes, List.zipIdx_append, List.flatMap_append, List.zipIdx_singleton, List.flatMap_singleton]
  rfl

/-- What a handler is that holds `d`. -/
structure Holds (s : XmlMimeHandler R) (d : Held R) : Prop where
  records : s.records = (if d.cleared then [none] else []) ++ d.records.map some
  pathRegex : s.pathRegex = regexes d.base d.records
  extIndex : ∃ m, Tracks s.extIndex m ∧
    ∀ key, m.lookup key = (d.listing key).map fun i => asInt (d.base + i)
  loaded : s.loaded = d.loaded

theorem Holds.length {s : XmlMimeHandler R} {d : Held R} (hs : Holds s d) :
    s.records.length = d.base + d.records.length := by
  rw [hs.records, List.length_append, List.length_map, Held.base]
  split_ifs <;> rfl

theorem Holds.addRecord {s s' : XmlMimeHandler R} {d : Held R} {mr : MimeRecord R} (hs : Holds s d)
    (hadd : s.addRecord mr = some s') : Holds s' (d.call (.addRecord mr)) := by
  obtain ⟨extIndex, hput, rfl⟩ := Option.map_eq_some_iff.mp hadd
  obtain ⟨m, ht, hlookup⟩ := hs.extIndex
  refine ⟨?_, ?_, ⟨_, putExtensions_tracks ht hput, fun key => ?_⟩, hs.loaded⟩
  · change s.records ++ [some mr] = _ ++ List.map some (d.records ++ [mr])
    rw [hs.records, List.map_append, List.append_assoc]
    rfl
  · change s.pathRegex ++ _ = regexes d.base (d.records ++ [mr])
    rw [regexes_snoc, hs.pathRegex, hs.length]
  · have hlisting : (d.call (.addRecord mr)).listing key =
        if mr.extensions.contains key then some d.records.length else d.listing key :=
      Held.lastIdx_snoc _ _ _
    rw [lookup_enter, hlisting, hs.length, hlookup]
    by_cases hkey : key ∈ mr.extensions
    · rw [if_pos hkey, if_pos (List.contains_iff_mem.mpr hkey)]
      rfl
    · rw [if_neg hkey, if_neg (fun h => hkey (List.contains_iff_mem.mp h))]
      rfl

theorem Holds.clearRecords {s : XmlMimeHandler R} {d : Held R} (hs : Holds s d) :
    Holds s.clearRecords ⟨[], true, d.loaded⟩ := by
  obtain ⟨m, ht, -⟩ := hs.extIndex
  exact ⟨rfl, rfl, ⟨∅, ht.clear, fun key => Finmap.lookup_empty key⟩, hs.loaded⟩

theorem Holds.addRecords {s s' : XmlMimeHandler R} {d : Held R} {rcs : List (MimeRecord R)} (hs : Holds s d)
    (hadd : s.addRecords rcs = some s') : Holds s' { d with records := d.records ++ rcs } := by
  induction rcs generalizing s d with
  | nil =>
    cases hadd
    rw [List.append_nil]
    exact hs
  | cons rc rcs ih =>
    obtain ⟨s₁, hrc, hadd⟩ := Option.bind_eq_some_iff.mp hadd
    have h := ih (hs.addRecord hrc) hadd
    rw [Held.call, List.append_assoc] at h
    exact h

theorem Holds.step {s s' : XmlMimeHandler R} {d : Held R} {call : Call R} (hs : Holds s d)
    (hstep : s.step call = some s') : Holds s' (d.call call) := by
  cases call with
  | load rcs =>
    obtain ⟨s₁, hadd, rfl⟩ := Option.map_eq_some_iff.mp hstep
    have h := hs.clearRecords.addRecords hadd
    exact ⟨h.records, h.pathRegex, h.extIndex, rfl⟩
  | addRecord mr => exact hs.addRecord hstep
  | clean =>
    cases hstep
    rw [clean, Held.call, hs.loaded]
    split_ifs with hl
    · have h : Holds { s with loaded := false } { d with loaded := false } :=
        ⟨hs.records, hs.pathRegex, hs.extIndex, rfl⟩
      exact h.clearRecords
    · exact hs

theorem new_holds {s : XmlMimeHandler R} (hnew : new = some s) : Holds s (Held.after []) := by
  obtain ⟨extIndex, hmap, rfl⟩ := Option.map_eq_some_iff.mp hnew
  exact ⟨rfl, rfl, ⟨∅, Or.inl (HashMap.counted_new hmap), fun key => Finmap.lookup_empty key⟩, rfl⟩

theorem run_holds {s s' : XmlMimeHandler R} {d : Held R} {calls : List (Call R)} (hs : Holds s d)
    (hrun : Safety.run step calls s = some s') : Holds s' (calls.foldl Held.call d) := by
  induction calls generalizing s d with
  | nil =>
    cases hrun
    exact hs
  | cons call calls ih =>
    obtain ⟨s₁, hstep, hrun⟩ := Option.bind_eq_some_iff.mp hrun
    exact ih (hs.step hstep) hrun

theorem after_holds {s : XmlMimeHandler R} {calls : List (Call R)} (hs : after calls = some s) :
    Holds s (Held.after calls) := by
  obtain ⟨s₀, hnew, hrun⟩ := Option.bind_eq_some_iff.mp hs
  exact run_holds (new_holds hnew) hrun

/-! ## The lookup -/

section Lookup

variable {exec : R → Str → Bool} {filename : Str}

theorem find_regexes (base : Nat) (records : List (MimeRecord R)) :
    ((regexes base records).find? fun pr => exec pr.1 (cstr filename)).map Prod.snd =
      (records.findIdx? fun mr => mr.pathRegex.any fun regex => exec regex (cstr filename)).map fun i =>
        asInt (base + i) := by
  induction records generalizing base with
  | nil => rfl
  | cons mr records ih =>
    have hfirst : (mr.pathRegex.map fun regex => (regex, asInt base)).find? (fun pr => exec pr.1 (cstr filename)) =
        (mr.pathRegex.find? fun regex => exec regex (cstr filename)).map fun regex => (regex, asInt base) := by
      rw [List.find?_map]
      rfl
    have hcons : regexes base (mr :: records) =
        (mr.pathRegex.map fun regex => (regex, asInt base)) ++ regexes (base + 1) records := rfl
    rw [hcons, List.find?_append, hfirst, List.findIdx?_cons]
    cases hfind : mr.pathRegex.find? fun regex => exec regex (cstr filename) with
    | some regex =>
      have hany : (mr.pathRegex.any fun regex => exec regex (cstr filename)) = true :=
        List.any_eq_true.mpr ⟨regex, List.mem_of_find?_eq_some hfind, @List.find?_some _ (fun regex => exec regex (cstr filename)) _ _ hfind⟩
      rw [hany]
      rfl
    | none =>
      have hany : (mr.pathRegex.any fun regex => exec regex (cstr filename)) = false := by
        rw [List.any_eq_false]
        exact fun regex hregex => List.find?_eq_none.mp hfind regex hregex
      rw [hany, Option.map_none, Option.none_or, ih, if_neg Bool.false_ne_true, Option.map_map]
      congr 1
      funext i
      rw [Function.comp_apply, Nat.add_right_comm, Nat.add_assoc]

/-- The position that `getMIME` goes by. -/
theorem getMIME_eq {s : XmlMimeHandler R} {d : Held R} (hs : Holds s d) :
    s.getMIME exec filename =
      let place := fun i => asInt (d.base + i)
      let pos := ((d.matching exec filename).map place).getD 0
      s.recordAt (if pos = 0 then ((d.listing (Rotation.getFileExt (cstr filename))).map place).getD 0 else pos) := by
  obtain ⟨m, ht, hlookup⟩ := hs.extIndex
  have hpos : (match s.pathRegex.find? fun pr => exec pr.1 (cstr filename) with
      | some pr => pr.2
      | none => 0) = ((d.matching exec filename).map fun i => asInt (d.base + i)).getD 0 := by
    rw [Held.matching, ← find_regexes, ← hs.pathRegex]
    cases s.pathRegex.find? fun pr => exec pr.1 (cstr filename) with
    | none => rfl
    | some pr => rfl
  rw [getMIME, hpos, ht.get, hlookup]
  dsimp only
  split_ifs <;> rfl

theorem recordAt_some {s : XmlMimeHandler R} {pos : Int} {n : Nat} {mr : MimeRecord R}
    (h : s.recordAt pos = some (some (n, mr))) : pos = n ∧ 0 < n := by
  unfold recordAt at h
  split_ifs at h with hzero hneg
  · cases h
  · obtain ⟨found, -, hfound⟩ := Option.map_eq_some_iff.mp h
    obtain ⟨mr', -, heq⟩ := Option.map_eq_some_iff.mp hfound
    cases heq
    omega

theorem recordAt_held {s : XmlMimeHandler R} {d : Held R} (hs : Holds s d) {i : Nat} {mr : MimeRecord R}
    (hi : d.records[i]? = some mr) (hpos : 0 < d.base + i) (hlt : d.base + i < 2 ^ 31) :
    s.recordAt (asInt (d.base + i)) = some (some (d.base + i, mr)) := by
  have hget : s.records[d.base + i]? = some (some mr) := by
    rw [hs.records, Held.base]
    split_ifs
    · rw [Nat.add_comm]
      simp [hi]
    · simp [hi]
  rw [asInt_eq hlt, recordAt, if_neg (by omega), if_neg (by omega), Int.toNat_natCast, hget]
  rfl

/-- What is wanted has a place in the records. -/
theorem wanted_eq {d : Held R} {i : Nat}
    (hi : (d.matching exec filename).or (d.listing (Rotation.getFileExt (cstr filename))) = some i) :
    ∃ mr, d.records[i]? = some mr ∧ d.wanted exec filename = some (d.base + i, mr) := by
  have hlt : i < d.records.length := by
    rcases Option.or_eq_some_iff.mp hi with h | ⟨-, h⟩
    · exact (List.findIdx?_eq_some_iff_findIdx_eq.mp h).1
    · exact Held.lastIdx_lt h
  refine ⟨d.records[i], List.getElem?_eq_getElem hlt, ?_⟩
  rw [Held.wanted, hi, Option.bind_some, List.getElem?_eq_getElem hlt]
  rfl

end Lookup

/-- **A file finds the record that it should** if and only if that record is not in the place that stands for no
record, and its place is an `int`. -/
theorem getMIME_iff {calls : List (Call R)} {s : XmlMimeHandler R} (hs : after calls = some s)
    (exec : R → Str → Bool) (filename : Str) :
    s.getMIME exec filename = some ((Held.after calls).wanted exec filename) ↔
      ∀ n mr, (Held.after calls).wanted exec filename = some (n, mr) → 0 < n ∧ n < 2 ^ 31 := by
  have hholds := after_holds hs
  generalize Held.after calls = d at hholds
  have hget := @getMIME_eq R exec filename s d hholds
  constructor
  · intro hmime n mr hwanted
    rw [hget, hwanted] at hmime
    obtain ⟨hpos, hn⟩ := recordAt_some hmime
    refine ⟨hn, ?_⟩
    -- a position comes out of an `int`
    have hbound : ∀ o : Option Nat, (o.map fun i => asInt (d.base + i)).getD 0 < 2 ^ 31 := by
      intro o
      cases o with
      | none => norm_num
      | some i => exact asInt_lt _
    have hmatching := hbound (d.matching exec filename)
    have hlisting := hbound (d.listing (Rotation.getFileExt (cstr filename)))
    split_ifs at hpos <;> omega
  · intro hplaces
    have hheld : ∀ i, (d.matching exec filename).or (d.listing (Rotation.getFileExt (cstr filename))) = some i →
        asInt (d.base + i) ≠ 0 ∧ s.recordAt (asInt (d.base + i)) = some (d.wanted exec filename) := by
      intro i hi
      obtain ⟨mr, hmr, hwanted⟩ := wanted_eq hi
      obtain ⟨hpos, hlt⟩ := hplaces _ mr hwanted
      refine ⟨by rw [asInt_eq hlt]; omega, ?_⟩
      rw [recordAt_held hholds hmr hpos hlt, hwanted]
    rw [hget]
    dsimp only
    cases hm : d.matching exec filename with
    | some i =>
      obtain ⟨hne, hrecord⟩ := hheld i (by rw [hm]; rfl)
      rw [Option.map_some, Option.getD_some, if_neg hne, hrecord]
    | none =>
      rw [Option.map_none, Option.getD_none, if_pos rfl]
      cases hl : d.listing (Rotation.getFileExt (cstr filename)) with
      | some i =>
        obtain ⟨-, hrecord⟩ := hheld i (by rw [hm, hl]; rfl)
        rw [Option.map_some, Option.getD_some, hrecord]
      | none =>
        rw [Held.wanted, hm, hl]
        rfl

theorem getMIME_loaded : ∃ s : XmlMimeHandler Str,
    after [.load [⟨[ascii "txt", ascii "c"], []⟩, ⟨[ascii "c"], []⟩]] = some s ∧
    s.getMIME (fun _ _ => false) (ascii "a.c") =
      some ((Held.after [.load [⟨[ascii "txt", ascii "c"], []⟩, ⟨[ascii "c"], []⟩]]).wanted
        (fun _ _ => false) (ascii "a.c")) := by
  refine ⟨_, rfl, (getMIME_iff rfl _ _).mpr ?_⟩
  intro n mr hwanted
  cases hwanted
  decide

/-- The first record of a handler that was not loaded is not found. -/
theorem not_getMIME : ∃ s : XmlMimeHandler Str, after [.addRecord ⟨[ascii "a"], []⟩] = some s ∧
    s.getMIME (fun _ _ => false) (ascii "x.a") = some none ∧
    (Held.after [.addRecord ⟨[ascii "a"], []⟩]).wanted (fun (_ : Str) _ => false) (ascii "x.a") =
      some (0, ⟨[ascii "a"], []⟩) :=
  ⟨_, rfl, by decide, by decide⟩

end XmlMimeHandler

end MyServer
