import MyServer.Bytes
import MyServer.Lib.Cells

/-!
# Copies with a bound

`securestr.cpp` has each of the two functions twice, and a macro says which of them is compiled.
-/

open MyServer.Cells

namespace MyServer.SecureStr

/-- `strlcpy` as it is in BSD, with the length it tries to create. -/
def bsdStrlcpy (dst src : Str) (size : Nat) : Str × Nat :=
  (if size = 0 then dst else Heap.splice dst 0 (src.take (size - 1) ++ [0]), src.length)

def bsdStrlcat (dst src : Str) (size : Nat) : Str × Nat :=
  let len := (cstr (dst.take size)).length
  (if len = size then dst else Heap.splice dst len (src.take (size - len - 1) ++ [0]), len + src.length)

def strlen (b : Str) : Option Nat := if 0 ∈ b then some (cstr b).length else none

/-! ## With `FAST_SECURE_STR` -/

namespace Fast

def myserver_strlcat (dst src : Str) (size : BitVec 32) : Option (Str × BitVec 32) :=
  (strlen dst).bind fun dstLen =>
  let srcLen := src.length
  let size := size - BitVec.ofNat 32 dstLen
  let tc := if srcLen < size.toNat then srcLen else size.toNat
  if tc ≠ 0 then
    let tc := if size.toNat ≤ srcLen then tc - 1 else tc
    (copy dst dstLen (src.take tc)).bind fun dst =>
    (put dst tc 0).map fun dst => (dst, BitVec.ofNat 32 (dstLen + srcLen))
  else some (dst, BitVec.ofNat 32 (dstLen + srcLen))

def myserver_strlcpy (dst src : Str) (size : BitVec 32) : Option (Str × BitVec 32) :=
  let ret := src.length
  let tc := if ret < size.toNat then ret else size.toNat
  if tc ≠ 0 then
    let tc := if size.toNat ≤ ret then tc - 1 else tc
    (copy dst 0 (src.take tc)).bind fun dst => (put dst tc 0).map fun dst => (dst, BitVec.ofNat 32 ret)
  else some (dst, BitVec.ofNat 32 ret)

end Fast

/-! ## Without -/

namespace Slow

/-- `while (tocopy-- && *dstptr) dstptr++;` -/
def skip (dst : Str) : Nat → Nat → Option Nat
  | 0, dstptr => some dstptr
  | tocopy + 1, dstptr => (dst[dstptr]?).bind fun c => if c = 0 then some dstptr else skip dst tocopy (dstptr + 1)

/-- The loop over `*srcptr`. -/
def append : Str → Nat → Nat → Str → Option (Nat × Str)
  | [], _, dstptr, dst => some (dstptr, dst)
  | c :: src, tocopy, dstptr, dst =>
    if tocopy ≠ 1 then (put dst dstptr c).bind fun dst => append src (tocopy - 1) (dstptr + 1) dst
    else append src tocopy dstptr dst

def myserver_strlcat (dst src : Str) (size : BitVec 32) : Option (Str × BitVec 32) :=
  (skip dst size.toNat 0).bind fun dstlen =>
  let tocopy := size.toNat - dstlen
  if tocopy = 0 then some (dst, BitVec.ofNat 32 (dstlen + src.length))
  else
    (append src tocopy dstlen dst).bind fun r =>
    (put r.2 r.1 0).map fun dst => (dst, BitVec.ofNat 32 (dstlen + src.length))

/-- The `do` loop. The two pointers go on together; `tocopy` comes last. -/
def fill (src : Str) : Nat → Nat → Str → Option (Str × Nat × Nat)
  | 0, ptr, dst => some (dst, ptr, 0)
  | tocopy + 1, ptr, dst =>
    ((src ++ [0])[ptr]?).bind fun c => (put dst ptr c).bind fun dst =>
      if c = 0 then some (dst, ptr + 1, tocopy + 1) else fill src tocopy (ptr + 1) dst

/-- `while (*srcptr++);` -/
def toEnd (src : Str) (srcptr : Nat) : Nat := srcptr + (cstr (src.drop srcptr)).length + 1

def myserver_strlcpy (dst src : Str) (size : BitVec 32) : Option (Str × BitVec 32) :=
  (if size.toNat ≠ 0 ∧ size.toNat - 1 ≠ 0 then fill src (size.toNat - 1) 0 dst else some (dst, 0, 0)).bind fun r =>
  if r.2.2 = 0 then
    (if size.toNat ≠ 0 then put r.1 r.2.1 0 else some r.1).map fun dst => (dst, BitVec.ofNat 32 (toEnd src r.2.1 - 1))
  else some (r.1, BitVec.ofNat 32 (r.2.1 - 1))

end Slow

/-- The bytes and the number. -/
def Meets (r : Option (Str × BitVec 32)) (spec : Str × Nat) : Prop := r.map (fun r => (r.1, r.2.toNat)) = some spec

instance (r : Option (Str × BitVec 32)) (spec : Str × Nat) : Decidable (Meets r spec) := by
  unfold Meets
  infer_instance

/-- Something is copied, or there is nothing to write. -/
def Copies (dst src : Str) (size : Nat) : Prop :=
  src.length < 2 ^ 32 ∧ (src ≠ [] ∨ size = 0 ∨ dst.head? = some 0)

/-- There is a text in the destination, and nothing is put behind one. -/
def Joins (dst src : Str) (size : Nat) : Prop :=
  0 ∈ dst ∧ min size (cstr dst).length + src.length < 2 ^ 32 ∧
    if (cstr dst).length < size then src = [] ∨ (cstr dst).length = 0 else (cstr dst).length % 2 ^ 32 = size

section

variable {dst src front mid out pre rest : Str} {n : Nat} {size : BitVec 32}

theorem meets_some {text : Str} {ret n : Nat} : Meets (some (text, BitVec.ofNat 32 ret)) (out, n) ↔ text = out ∧ ret % 2 ^ 32 = n := by
  unfold Meets
  rw [Option.map_some, Option.some_inj, Prod.mk.injEq, BitVec.toNat_ofNat]

theorem cstr_take (s : Str) (n : Nat) : cstr (s.take n) = (cstr s).take n := by
  induction s generalizing n with
  | nil => simp [cstr]
  | cons c s ih =>
    cases n with
    | zero => rfl
    | succ n =>
      unfold cstr at ih ⊢
      rw [List.take_succ_cons, List.takeWhile_cons, List.takeWhile_cons]
      split_ifs with hc
      · rw [ih, List.take_succ_cons]
      · rfl

theorem length_cstr_take (s : Str) (n : Nat) : (cstr (s.take n)).length = min n (cstr s).length := by
  rw [cstr_take, List.length_take]

/-! ## `strlcpy` -/

theorem fill_spec (hsrc : (0 : Byte) ∉ pre ++ rest) (hn : n ≤ mid.length) :
    Slow.fill (pre ++ rest) n pre.length (pre ++ mid) =
      if rest.length < n then
        some (pre ++ rest ++ [0] ++ mid.drop (rest.length + 1), (pre ++ rest).length + 1, n - rest.length)
      else some (pre ++ rest.take n ++ mid.drop n, pre.length + n, 0) := by
  induction n generalizing pre rest mid with
  | zero => simp [Slow.fill]
  | succ n ih =>
    obtain ⟨m, mid, rfl⟩ := List.exists_cons_of_length_pos (Nat.lt_of_lt_of_le (Nat.succ_pos n) hn)
    have hread := getElem?_front pre (rest ++ [0]) 0
    rw [Nat.add_zero, List.drop_zero, ← List.append_assoc] at hread
    rw [Slow.fill, hread]
    cases rest with
    | nil =>
      have hlt : ([] : Str).length < n + 1 := Nat.succ_pos n
      rw [List.nil_append, List.head?_cons, Option.bind_some, put_append, Option.bind_some, if_pos rfl, if_pos hlt]
      simp
    | cons c rest =>
      have hc : c ≠ 0 := by
        rintro rfl
        exact hsrc (by simp)
      have hsplit : pre ++ c :: rest = pre ++ [c] ++ rest := by simp
      have hlength : (pre ++ [c]).length = pre.length + 1 := by simp
      rw [List.cons_append, List.head?_cons, Option.bind_some, put_append, Option.bind_some, if_neg hc, hsplit, ← hlength,
        ih (hsplit ▸ hsrc) (by simpa using hn)]
      simp only [List.length_cons, Nat.succ_lt_succ_iff, List.drop_succ_cons, List.take_succ_cons, List.append_assoc,
        List.cons_append, List.nil_append, List.length_append, Nat.succ_sub_succ, List.length_nil]
      split_ifs
      · rfl
      · congr 3
        omega

theorem toEnd_eq (hsrc : (0 : Byte) ∉ src) {i : Nat} (hi : i ≤ src.length) : Slow.toEnd src i - 1 = src.length := by
  have hdrop : (0 : Byte) ∉ src.drop i := fun hmem => hsrc (List.mem_of_mem_drop hmem)
  unfold Slow.toEnd
  rw [cstr_of_notMem hdrop, List.length_drop]
  omega

/-- **The loop copies as `strlcpy` does.** -/
theorem slow_strlcpy (hsrc : (0 : Byte) ∉ src) (hsize : size.toNat ≤ dst.length) :
    Slow.myserver_strlcpy dst src size =
      some ((bsdStrlcpy dst src size.toNat).1, BitVec.ofNat 32 (bsdStrlcpy dst src size.toNat).2) := by
  have hfill := @fill_spec dst [] src (size.toNat - 1) hsrc (by omega)
  have hloop : (if size.toNat ≠ 0 ∧ size.toNat - 1 ≠ 0 then Slow.fill src (size.toNat - 1) 0 dst else some (dst, 0, 0)) =
      Slow.fill src (size.toNat - 1) 0 dst := by
    split_ifs with hcopy
    · rfl
    · have hzero : size.toNat - 1 = 0 := by omega
      rw [hzero]
      rfl
  simp only [List.nil_append, List.length_nil, Nat.zero_add] at hfill
  unfold Slow.myserver_strlcpy bsdStrlcpy
  rw [hloop, hfill]
  dsimp only
  by_cases hlt : src.length < size.toNat - 1
  · rw [if_pos hlt, Option.bind_some, if_neg (by dsimp only; omega), if_neg (by omega)]
    have htake : src.take (size.toNat - 1) = src := List.take_of_length_le hlt.le
    rw [htake]
    have hlength : (src ++ [(0 : Byte)]).length = src.length + 1 := by simp
    unfold Heap.splice
    rw [hlength, List.take_zero, Nat.zero_add]
    rfl
  · rw [if_neg hlt, Option.bind_some, if_pos rfl, toEnd_eq hsrc (by dsimp only; omega)]
    by_cases hzero : size.toNat = 0
    · rw [if_neg (not_not.mpr hzero), if_pos hzero, hzero]
      rfl
    · have hlength : (src.take (size.toNat - 1)).length = size.toNat - 1 := List.length_take_of_le (by omega)
      have hput := @put_splice _ dst (src.take (size.toNat - 1)) 0 (by omega) 0
      rw [Nat.zero_add, hlength] at hput
      have hcopied : Heap.splice dst 0 (src.take (size.toNat - 1)) = src.take (size.toNat - 1) ++ dst.drop (size.toNat - 1) := by
        unfold Heap.splice
        rw [hlength, Nat.zero_add]
        rfl
      rw [if_pos hzero, if_neg hzero, ← hcopied, hput, Option.map_some]

theorem fast_strlcpy (hsize : size.toNat ≤ dst.length) :
    Fast.myserver_strlcpy dst src size =
      if src = [] then some (dst, 0)
      else some ((bsdStrlcpy dst src size.toNat).1, BitVec.ofNat 32 (bsdStrlcpy dst src size.toNat).2) := by
  unfold Fast.myserver_strlcpy bsdStrlcpy
  dsimp only
  by_cases hempty : src = []
  · subst hempty
    rw [if_pos rfl, if_neg]
    · rfl
    · rw [List.length_nil]
      split_ifs <;> omega
  have hpos := List.length_pos_iff.mpr hempty
  rw [if_neg hempty]
  by_cases hzero : size.toNat = 0
  · rw [if_neg, if_pos hzero]
    rw [hzero, if_neg (Nat.not_lt_zero _)]
    exact not_not.mpr rfl
  · have htc : (if size.toNat ≤ src.length then (if src.length < size.toNat then src.length else size.toNat) - 1
        else if src.length < size.toNat then src.length else size.toNat) = min src.length (size.toNat - 1) := by
      split_ifs <;> omega
    have htake : src.take (min src.length (size.toNat - 1)) = src.take (size.toNat - 1) := by
      rw [Nat.min_comm, ← List.take_eq_take_min]
    have hlength : (src.take (size.toNat - 1)).length = min src.length (size.toNat - 1) := by
      rw [List.length_take, Nat.min_comm]
    rw [if_pos (by split_ifs <;> omega), if_neg hzero, htc, htake]
    have hput := @put_splice _ dst (src.take (size.toNat - 1)) 0 (by omega) 0
    rw [Nat.zero_add, hlength] at hput
    rw [copy, if_pos (by omega), Option.bind_some, hput, Option.map_some]

/-! ## `strlcat` -/

theorem skip_spec {i : Nat} (hle : i + n ≤ dst.length) :
    Slow.skip dst n i = some (i + (cstr ((dst.drop i).take n)).length) := by
  induction n generalizing i with
  | zero => rw [Slow.skip, List.take_zero]; rfl
  | succ n ih =>
    have hlt : i < dst.length := by omega
    rw [Slow.skip, List.getElem?_eq_getElem hlt, Option.bind_some, List.drop_eq_getElem_cons hlt, List.take_succ_cons]
    unfold cstr
    rw [List.takeWhile_cons]
    by_cases hzero : dst[i] = 0
    · rw [if_pos hzero, if_neg (by simpa using hzero)]
      rfl
    · rw [if_neg hzero, if_pos (by simpa using hzero), ih (by omega), List.length_cons]
      unfold cstr
      congr 1
      omega

theorem append_spec {tocopy : Nat} (hpos : 0 < tocopy) (hle : tocopy ≤ mid.length) :
    Slow.append src tocopy front.length (front ++ mid) =
      some (front.length + min src.length (tocopy - 1),
        front ++ src.take (tocopy - 1) ++ mid.drop (min src.length (tocopy - 1))) := by
  induction src generalizing tocopy front mid with
  | nil => simp [Slow.append]
  | cons c src ih =>
    unfold Slow.append
    by_cases hone : tocopy = 1
    · rw [if_neg (not_not.mpr hone), ih hpos hle, hone]
      simp
    · obtain ⟨m, mid, rfl⟩ := List.exists_cons_of_length_pos (Nat.lt_of_lt_of_le hpos hle)
      have hlength : (front ++ [c]).length = front.length + 1 := by simp
      obtain ⟨k, rfl⟩ : ∃ k, tocopy = k + 2 := ⟨tocopy - 2, by omega⟩
      have hstep := @ih (front ++ [c]) mid (k + 1) (Nat.succ_pos k) (by simp only [List.length_cons] at hle; omega)
      rw [if_pos hone, put_append, Option.bind_some, ← hlength]
      refine hstep.trans ?_
      have hmin : min (src.length + 1) (k + 1) = min src.length k + 1 := by omega
      simp only [Nat.add_sub_cancel, List.length_append, List.length_cons, List.length_nil, List.take_succ_cons, hmin,
        List.drop_succ_cons, List.append_assoc, List.cons_append, List.nil_append, Nat.reduceSubDiff]
      congr 2
      omega

theorem slow_strlcat (hsize : size.toNat ≤ dst.length) :
    Slow.myserver_strlcat dst src size =
      some ((bsdStrlcat dst src size.toNat).1, BitVec.ofNat 32 (bsdStrlcat dst src size.toNat).2) := by
  have hskip := @skip_spec dst size.toNat 0 (by omega)
  rw [List.drop_zero, Nat.zero_add] at hskip
  have hlen := length_cstr_take dst size.toNat
  unfold Slow.myserver_strlcat bsdStrlcat
  rw [hskip, Option.bind_some]
  dsimp only
  generalize (cstr (dst.take size.toNat)).length = len at hlen ⊢
  by_cases hfull : len = size.toNat
  · rw [if_pos (by omega), if_pos hfull]
  · have hfront : (dst.take len).length = len := List.length_take_of_le (by omega)
    have happend := @append_spec src (dst.take len) (dst.drop len) (size.toNat - len) (by omega)
      (by rw [List.length_drop]; omega)
    rw [hfront, List.take_append_drop] at happend
    have htake : (src.take (size.toNat - len - 1)).length = min src.length (size.toNat - len - 1) := by
      rw [List.length_take, Nat.min_comm]
    have hput := @put_splice _ dst (src.take (size.toNat - len - 1)) len (by omega) 0
    unfold Heap.splice at hput ⊢
    rw [htake] at hput
    rw [if_neg (by omega), if_neg hfull, happend, Option.bind_some]
    rw [List.drop_drop, hput, Option.map_some]

theorem strlen_eq (hmem : (0 : Byte) ∈ dst) : strlen dst = some (cstr dst).length := if_pos hmem

/-- What is written, with the room that is left as a parameter. -/
theorem fast_strlcat {room : Nat} (hmem : (0 : Byte) ∈ dst)
    (hroom : (size - BitVec.ofNat 32 (cstr dst).length).toNat = room) :
    Fast.myserver_strlcat dst src size =
      (if min src.length room = 0 then some dst
        else (copy dst (cstr dst).length (src.take (min src.length (room - 1)))).bind fun b =>
          put b (min src.length (room - 1)) 0).map fun b =>
        (b, BitVec.ofNat 32 ((cstr dst).length + src.length)) := by
  unfold Fast.myserver_strlcat
  rw [strlen_eq hmem, Option.bind_some]
  dsimp only
  rw [hroom]
  have hmin : (if src.length < room then src.length else room) = min src.length room := by
    split_ifs <;> omega
  have htc : (if room ≤ src.length then min src.length room - 1 else min src.length room) = min src.length (room - 1) := by
    split_ifs <;> omega
  rw [hmin]
  by_cases hzero : min src.length room = 0
  · rw [if_neg (not_not.mpr hzero), if_pos hzero]
    rfl
  · rw [if_pos hzero, if_neg hzero, htc]
    cases copy dst (cstr dst).length (src.take (min src.length (room - 1))) with
    | none => rfl
    | some b => rfl

theorem getElem?_cstr {i : Nat} (hi : i < (cstr dst).length) : ∃ c, dst[i]? = some c ∧ c ≠ 0 := by
  obtain ⟨rest, hrest⟩ : cstr dst <+: dst := List.takeWhile_prefix _
  have happend := @List.getElem?_append_left _ (cstr dst) rest i hi
  rw [hrest, List.getElem?_eq_getElem hi] at happend
  exact ⟨(cstr dst)[i], happend, ne_zero_of_mem_cstr (List.getElem_mem hi)⟩

theorem exists_cstr_append (hmem : (0 : Byte) ∈ dst) : ∃ back, dst = cstr dst ++ ([0] ++ back) := by
  induction dst with
  | nil => exact absurd hmem List.not_mem_nil
  | cons c s ih =>
    by_cases hc : c = 0
    · subst hc
      exact ⟨s, rfl⟩
    · obtain ⟨back, hback⟩ := ih ((List.mem_cons.mp hmem).resolve_left (Ne.symm hc))
      have hcons : cstr (c :: s) = c :: cstr s := List.takeWhile_cons_of_pos (by simpa using hc)
      refine ⟨back, ?_⟩
      rw [hcons, List.cons_append, ← hback]

/-- The NUL that is put behind the text that was there is put at its own place only where there was none. -/
theorem fast_strlcat_within (hsrc : (0 : Byte) ∉ src) (hsize : size.toNat ≤ dst.length) (hmem : (0 : Byte) ∈ dst)
    (hlt : (cstr dst).length < size.toNat) :
    Meets (Fast.myserver_strlcat dst src size) (bsdStrlcat dst src size.toNat) ↔
      (cstr dst).length + src.length < 2 ^ 32 ∧ (src = [] ∨ (cstr dst).length = 0) := by
  have hlen := length_cstr_take dst size.toNat
  rw [Nat.min_eq_right hlt.le] at hlen
  have hroom : (size - BitVec.ofNat 32 (cstr dst).length).toNat = size.toNat - (cstr dst).length := by
    have hlt32 := size.isLt
    rw [BitVec.toNat_sub, BitVec.toNat_ofNat]
    omega
  have hbsd : bsdStrlcat dst src size.toNat =
      (Heap.splice dst (cstr dst).length (src.take (size.toNat - (cstr dst).length - 1) ++ [0]),
        (cstr dst).length + src.length) := by
    unfold bsdStrlcat
    rw [hlen]
    exact congrArg (·, _) (if_neg hlt.ne)
  rw [fast_strlcat hmem hroom, hbsd]
  by_cases hempty : src = []
  · subst hempty
    obtain ⟨back, hback⟩ := exists_cstr_append hmem
    have hsame : Heap.splice dst (cstr dst).length [0] = dst := by
      have hsplice := splice_append (cstr dst) [0] back [0] rfl
      rw [← hback] at hsplice
      rw [hsplice, List.append_assoc, ← hback]
    have hzero : min ([] : Str).length (size.toNat - (cstr dst).length) = 0 := Nat.min_eq_left (Nat.zero_le _)
    rw [if_pos hzero, Option.map_some, meets_some, List.take_nil, List.nil_append, hsame]
    simp only [true_and, true_or, and_true]
    omega
  have hpos := List.length_pos_iff.mpr hempty
  have htake : src.take (min src.length (size.toNat - (cstr dst).length - 1)) =
      src.take (size.toNat - (cstr dst).length - 1) := by
    rw [Nat.min_comm, ← List.take_eq_take_min]
  have hlength : (src.take (size.toNat - (cstr dst).length - 1)).length =
      min src.length (size.toNat - (cstr dst).length - 1) := by
    rw [List.length_take, Nat.min_comm]
  have hcopied := @Heap.length_splice _ dst (src.take (size.toNat - (cstr dst).length - 1)) (cstr dst).length (by omega)
  rw [if_neg (by omega), htake, copy, if_pos (by omega), Option.bind_some, put, if_pos (by omega), Option.map_some,
    meets_some]
  constructor
  · rintro ⟨hout, hret⟩
    refine ⟨by omega, Or.inr ?_⟩
    by_contra hd
    have hat := congrArg (fun b => b[min src.length (size.toNat - (cstr dst).length - 1)]?) hout
    rw [List.getElem?_set_self (by omega), getElem?_splice (by rw [List.length_append, List.length_singleton]; omega)] at hat
    split_ifs at hat with hfront hback
    · obtain ⟨c, hc, hne⟩ := getElem?_cstr hfront
      rw [hc] at hat
      exact hne (Option.some.inj hat).symm
    · rw [List.getElem?_append_left (by omega)] at hat
      have hmem0 := List.mem_of_getElem? hat.symm
      exact hsrc (List.mem_of_mem_take hmem0)
    · rw [List.length_append, List.length_singleton] at hback
      omega
  · rintro ⟨hret, hcond⟩
    have hd := hcond.resolve_left hempty
    refine ⟨?_, by omega⟩
    have hput := @put_splice _ dst (src.take (size.toNat - (cstr dst).length - 1)) (cstr dst).length (by omega) 0
    unfold put at hput
    rw [if_pos (by omega), hlength, hd, Nat.zero_add] at hput
    rw [hd]
    exact Option.some.inj hput

/-- **The fast `strlcat`** is right where nothing is appended, or there was no text, or no room. -/
theorem fast_strlcat_iff (hsrc : (0 : Byte) ∉ src) (hsize : size.toNat ≤ dst.length) :
    Meets (Fast.myserver_strlcat dst src size) (bsdStrlcat dst src size.toNat) ↔ Joins dst src size.toNat := by
  by_cases hmem : (0 : Byte) ∈ dst
  swap
  · have hnone : Fast.myserver_strlcat dst src size = none := by
      unfold Fast.myserver_strlcat strlen
      rw [if_neg hmem]
      rfl
    rw [hnone]
    constructor
    · intro hmeets
      cases hmeets
    · intro hjoins
      exact absurd hjoins.1 hmem
  rcases Nat.lt_or_ge (cstr dst).length size.toNat with hlt | hge
  · rw [fast_strlcat_within hsrc hsize hmem hlt, Joins, if_pos hlt, Nat.min_eq_right hlt.le]
    exact (and_iff_right hmem).symm
  · have hlen := length_cstr_take dst size.toNat
    rw [Nat.min_eq_left hge] at hlen
    have hbsd : bsdStrlcat dst src size.toNat = (dst, size.toNat + src.length) := by
      unfold bsdStrlcat
      rw [hlen]
      exact congrArg (·, _) (if_pos rfl)
    have hlt32 := size.isLt
    rw [hbsd, Joins, if_neg (Nat.not_lt.mpr hge), Nat.min_eq_left hge, fast_strlcat hmem rfl]
    constructor
    · intro hmeets
      unfold Meets at hmeets
      obtain ⟨r, hr, hret⟩ := Option.map_eq_some_iff.mp hmeets
      obtain ⟨b, -, rfl⟩ := Option.map_eq_some_iff.mp hr
      have hnumber := congrArg Prod.snd hret
      simp only [BitVec.toNat_ofNat] at hnumber
      exact ⟨hmem, by omega, by omega⟩
    · rintro ⟨-, hsum, hmod⟩
      have hroom : (size - BitVec.ofNat 32 (cstr dst).length).toNat = 0 := by
        rw [BitVec.toNat_sub, BitVec.toNat_ofNat]
        omega
      rw [hroom, if_pos (Nat.min_zero _), Option.map_some, meets_some]
      exact ⟨rfl, by omega⟩

theorem bsdStrlcpy_nil (hsize : n ≤ dst.length) :
    (bsdStrlcpy dst [] n).1 = dst ↔ n = 0 ∨ dst.head? = some 0 := by
  by_cases hzero : n = 0
  · simp [bsdStrlcpy, hzero]
  · obtain ⟨c, back, rfl⟩ := List.exists_cons_of_length_pos (Nat.lt_of_lt_of_le (Nat.pos_of_ne_zero hzero) hsize)
    simp [bsdStrlcpy, Heap.splice, hzero, eq_comm]

/-- **The bounded copies.** Both variants of both functions are those of BSD exactly under these conditions. -/
theorem copied_as_bsd_iff (dst src : Str) (size : BitVec 32) (hsrc : (0 : Byte) ∉ src) (hsize : size.toNat ≤ dst.length) :
    (Meets (Fast.myserver_strlcpy dst src size) (bsdStrlcpy dst src size.toNat) ∧
        Meets (Slow.myserver_strlcpy dst src size) (bsdStrlcpy dst src size.toNat) ↔ Copies dst src size.toNat) ∧
      (Meets (Fast.myserver_strlcat dst src size) (bsdStrlcat dst src size.toNat) ∧
        Meets (Slow.myserver_strlcat dst src size) (bsdStrlcat dst src size.toNat) ↔ Joins dst src size.toNat) := by
  constructor
  · rw [fast_strlcpy hsize, slow_strlcpy hsrc hsize]
    have hnumber : (bsdStrlcpy dst src size.toNat).2 = src.length := rfl
    by_cases hempty : src = []
    · subst hempty
      have hfast : Meets (some (dst, 0)) (bsdStrlcpy dst [] size.toNat) ↔ (bsdStrlcpy dst [] size.toNat).1 = dst := by
        refine (@meets_some (bsdStrlcpy dst [] size.toNat).1 dst 0 0).trans ?_
        rw [eq_comm]
        exact and_iff_left rfl
      have hslow : Meets (some ((bsdStrlcpy dst [] size.toNat).1, BitVec.ofNat 32 (bsdStrlcpy dst [] size.toNat).2))
          (bsdStrlcpy dst [] size.toNat) := meets_some.mpr ⟨rfl, rfl⟩
      rw [if_pos rfl, hfast, and_iff_left hslow, bsdStrlcpy_nil hsize, Copies]
      simp
    · rw [if_neg hempty, hnumber, meets_some, and_self, Copies]
      refine ⟨?_, ?_⟩
      · rintro ⟨-, hret⟩
        exact ⟨by omega, Or.inl hempty⟩
      · rintro ⟨hlt, -⟩
        exact ⟨rfl, Nat.mod_eq_of_lt hlt⟩
  · rw [slow_strlcat hsize, fast_strlcat_iff hsrc hsize]
    refine and_iff_left_of_imp fun hjoins => ?_
    have hlen := length_cstr_take dst size.toNat
    have hsum := hjoins.2.1
    refine meets_some.mpr ⟨rfl, Nat.mod_eq_of_lt ?_⟩
    unfold bsdStrlcat
    dsimp only
    omega

end

theorem copied_abc : (Meets (Fast.myserver_strlcpy [0, 1, 1] (ascii "abc") 3) (bsdStrlcpy [0, 1, 1] (ascii "abc") 3) ∧
      Meets (Slow.myserver_strlcpy [0, 1, 1] (ascii "abc") 3) (bsdStrlcpy [0, 1, 1] (ascii "abc") 3)) ∧
    Meets (Fast.myserver_strlcat [0, 1, 1] (ascii "abc") 3) (bsdStrlcat [0, 1, 1] (ascii "abc") 3) ∧
      Meets (Slow.myserver_strlcat [0, 1, 1] (ascii "abc") 3) (bsdStrlcat [0, 1, 1] (ascii "abc") 3) :=
  have hboth := copied_as_bsd_iff [0, 1, 1] (ascii "abc") 3 (by decide) (by decide)
  ⟨hboth.1.mpr ⟨by decide, Or.inl (by decide)⟩, hboth.2.mpr ⟨by decide, by decide, Or.inr rfl⟩⟩

/-- An empty text leaves what was there, and "c" behind "ab" is ended in the middle. -/
theorem bsd_differs :
    ¬Meets (Fast.myserver_strlcpy [1, 1] [] 2) (bsdStrlcpy [1, 1] [] 2) ∧
      ¬Meets (Fast.myserver_strlcat (ascii "ab" ++ [0, 1, 1]) (ascii "c") 5) (bsdStrlcat (ascii "ab" ++ [0, 1, 1]) (ascii "c") 5) := by
  decide

end MyServer.SecureStr
