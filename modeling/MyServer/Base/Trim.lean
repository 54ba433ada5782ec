import Mathlib.Data.List.DropRight
import MyServer.Bytes
import MyServer.Lib.Cells

/-!
# Trimming

There is a `trim` for a `std::string`, made of one for each side, and a `trim` that works in the place of a `char*`.
-/

open MyServer.Cells

namespace MyServer.Trim

/-! ## For a `std::string` -/

def find_first_not_of (s t : Str) : Option Nat := s.findIdx? fun c => c ∉ t

def find_last_not_of (s t : Str) : Option Nat := (s.reverse.findIdx? fun c => c ∉ t).map fun i => s.length - 1 - i

/-- `npos + 1` is 0. -/
def trimRight (s t : Str) : Str := s.take ((find_last_not_of s t).elim 0 (· + 1))

def trimLeft (s t : Str) : Str := s.drop ((find_first_not_of s t).getD s.length)

/-- The call of `trimLeft` leaves the set to its default. -/
def trim (s t : Str) : Str := trimLeft (trimRight s t) (ascii " ")

/-! ## For a `char*` -/

namespace InPlace

/-- The first loop. `trimptr` goes through `trimchars` again for each character. -/
def skip (trimchars str : Str) : Nat → Nat → Option Nat
  | 0, _ => none
  | n + 1, strptr =>
    if trimchars = [] then some strptr
    else (str[strptr]?).bind fun c =>
      if c = 0 then some strptr
      else if c ∈ trimchars then skip trimchars str n (strptr + 1)
      else some strptr

/-- The loop that copies down, with where the text ends then. -/
def move : Nat → Str → Nat → Nat → Option (Str × Nat)
  | 0, _, _, _ => none
  | n + 1, b, str, strptr =>
    (b[strptr]?).bind fun c =>
    if c = 0 then some (b, str) else (put b str c).bind fun b => move n b (str + 1) (strptr + 1)

/-- `while (*str) str++;` -/
def toEnd (b : Str) : Nat → Nat → Option Nat
  | 0, _ => none
  | n + 1, str => (b[str]?).bind fun c => if c = 0 then some str else toEnd b n (str + 1)

/-- The last loop, by the `str + 1` of the source. -/
def back (trimchars b : Str) : Nat → Option Nat
  | 0 => none
  | str + 1 => (b[str]?).bind fun c => if c ∈ trimchars then back trimchars b str else some (str + 1)

def finish (trimchars : Str) (r : Str × Nat) : Option Str :=
  (if trimchars = [] then some r.2 else back trimchars r.1 r.2).bind fun str => put r.1 str 0

def trim (str trimchars : Str) : Option Str :=
  (skip trimchars str str.length 0).bind fun strptr =>
  if strptr ≠ 0 then
    (str[strptr]?).bind fun c =>
    if c = 0 then put str 0 0 else (move str.length str 0 strptr).bind (finish trimchars)
  else (toEnd str str.length 0).bind fun e => finish trimchars (str, e)

end InPlace

/-- Without the characters of `t` at both ends. -/
def trimmed (s t : Str) : Str := (s.rdropWhile fun c => c ∈ t).dropWhile fun c => c ∈ t

/-- Both functions; a `char*` holds no NUL. -/
def Agrees (s t : Str) : Prop :=
  trim s t = trimmed s t ∧
    ((0 : Byte) ∉ s → (0 : Byte) ∉ t → ∃ b, InPlace.trim (s ++ [0]) t = some b ∧ cstr b = trimmed s t)

section

variable {α : Type} {p q : α → Bool} {l : List α} {s t out mid rest : Str} {k n : Nat}

theorem rdropWhile_cons (p : α → Bool) (c : α) (l : List α) :
    (c :: l).rdropWhile p = if l.rdropWhile p = [] ∧ p c = true then [] else c :: l.rdropWhile p := by
  unfold List.rdropWhile
  rw [List.reverse_cons, List.dropWhile_append]
  by_cases hnil : l.reverse.dropWhile p = []
  · by_cases hc : p c = true
    · simp [hnil, hc]
    · simp [hnil, hc]
  · simp [hnil]

/-- The two ends are trimmed in either order. -/
theorem rdropWhile_dropWhile (p : α → Bool) (l : List α) : (l.dropWhile p).rdropWhile p = (l.rdropWhile p).dropWhile p := by
  induction l with
  | nil => simp
  | cons c l ih =>
    by_cases hc : p c = true
    · rw [List.dropWhile_cons_of_pos hc, ih, rdropWhile_cons]
      split_ifs with hnil
      · rw [hnil.1]
      · rw [List.dropWhile_cons_of_pos hc]
    · rw [List.dropWhile_cons_of_neg hc, rdropWhile_cons, if_neg fun hboth => hc hboth.2, List.dropWhile_cons_of_neg hc]

theorem dropWhile_eq_iff : l.dropWhile p = l.dropWhile q ↔ l.takeWhile p = l.takeWhile q := by
  have hp := @List.takeWhile_append_dropWhile _ p l
  have hq := @List.takeWhile_append_dropWhile _ q l
  constructor
  · intro heq
    rw [heq] at hp
    exact List.append_cancel_right (hp.trans hq.symm)
  · intro heq
    rw [heq] at hp
    exact List.append_cancel_left (hp.trans hq.symm)

/-! ## The sides of a `std::string` -/

theorem drop_findIdx? (p : α → Bool) (l : List α) : l.drop ((l.findIdx? fun c => !p c).getD l.length) = l.dropWhile p := by
  induction l with
  | nil => rfl
  | cons c l ih =>
    rw [List.findIdx?_cons]
    by_cases hc : p c = true
    · rw [if_neg (by simp [hc]), List.dropWhile_cons_of_pos hc, ← ih]
      cases l.findIdx? fun c => !p c with
      | none => rfl
      | some i => rfl
    · rw [if_pos (by simp [hc]), List.dropWhile_cons_of_neg hc]
      rfl

theorem trimLeft_eq (s t : Str) : trimLeft s t = s.dropWhile fun c => c ∈ t := by
  rw [← drop_findIdx?]
  simp [trimLeft, find_first_not_of]

theorem trimRight_eq (s t : Str) : trimRight s t = s.rdropWhile fun c => c ∈ t := by
  have hdrop := drop_findIdx? (fun c => decide (c ∈ t)) s.reverse
  have hfun : (fun c => !decide (c ∈ t)) = fun c => decide (c ∉ t) := by
    funext c
    simp
  unfold List.rdropWhile
  rw [← hdrop, List.drop_reverse, List.reverse_reverse, List.length_reverse, hfun]
  unfold trimRight find_last_not_of
  cases hfind : s.reverse.findIdx? fun c => decide (c ∉ t) with
  | none => simp
  | some i =>
    have hlt := (List.findIdx?_eq_some_iff_findIdx_eq.mp hfind).1
    rw [List.length_reverse] at hlt
    simp only [Option.map_some, Option.elim_some, Option.getD_some]
    congr 1
    omega

/-- Only spaces are trimmed at the front. -/
theorem trim_eq (s t : Str) : trim s t = (s.rdropWhile fun c => c ∈ t).dropWhile fun c => c = ch ' ' := by
  unfold trim
  rw [trimLeft_eq, trimRight_eq]
  congr 1
  funext c
  exact decide_eq_decide.mpr List.mem_singleton

/-- What is left by the right side begins as the text does. -/
theorem takeWhile_rdropWhile (hall : ¬∀ c ∈ s, c ∈ t) :
    ((s.rdropWhile fun c => c ∈ t).takeWhile fun c => c ∈ t) = (s.takeWhile fun c => c ∈ t) ∧
      ((s.rdropWhile fun c => c ∈ t).takeWhile fun c => c = ch ' ') = s.takeWhile fun c => c = ch ' ' := by
  have hsplit := @List.rdropWhile_append_rtakeWhile _ (fun c => decide (c ∈ t)) s
  have hright : ∀ c ∈ s.rtakeWhile fun c => c ∈ t, c ∈ t := fun c hc => by simpa using List.mem_rtakeWhile_imp hc
  have hne : (s.rdropWhile fun c => c ∈ t) ≠ [] := fun hnil => hall (by simpa using List.rdropWhile_eq_nil_iff.mp hnil)
  have hlast : (s.rdropWhile fun c => c ∈ t).getLast hne ∉ t := by
    simpa using List.rdropWhile_last_not (fun c => decide (c ∈ t)) s hne
  generalize (s.rdropWhile fun c => c ∈ t) = r at hsplit hne hlast ⊢
  generalize (s.rtakeWhile fun c => c ∈ t) = u at hsplit hright
  subst hsplit
  have hmem := List.getLast_mem hne
  rw [List.takeWhile_append, List.takeWhile_append]
  constructor
  · rw [if_neg]
    intro hlength
    have hwhole := (List.takeWhile_prefix fun c => decide (c ∈ t)).eq_of_length hlength
    exact hlast (by simpa using List.takeWhile_eq_self_iff.mp hwhole _ hmem)
  · split_ifs with hlength
    · have hwhole := (List.takeWhile_prefix fun c => decide (c = ch ' ')).eq_of_length hlength
      have hspace : r.getLast hne = ch ' ' := by simpa using List.takeWhile_eq_self_iff.mp hwhole _ hmem
      have hnil : (u.takeWhile fun c => c = ch ' ') = [] := by
        cases u with
        | nil => rfl
        | cons c u =>
          refine List.takeWhile_cons_of_neg ?_
          rw [decide_eq_true_iff]
          rintro rfl
          exact hlast (hspace ▸ hright _ List.mem_cons_self)
      rw [hwhole, hnil, List.append_nil]
    · rfl

theorem trim_iff (s t : Str) :
    trim s t = trimmed s t ↔ (∀ c ∈ s, c ∈ t) ∨ (s.takeWhile fun c => c ∈ t) = s.takeWhile fun c => c = ch ' ' := by
  rw [trim_eq, trimmed, eq_comm, dropWhile_eq_iff]
  by_cases hall : ∀ c ∈ s, c ∈ t
  · have hnil : (s.rdropWhile fun c => c ∈ t) = [] := List.rdropWhile_eq_nil_iff.mpr (by simpa using hall)
    rw [hnil]
    exact ⟨fun _ => Or.inl hall, fun _ => rfl⟩
  · obtain ⟨hset, hspace⟩ := takeWhile_rdropWhile hall
    rw [hset, hspace, or_iff_right hall]

/-! ## In place -/

theorem skip_eq (hnul : (0 : Byte) ∉ out ++ rest) (hout : ∀ c ∈ out, c ∈ t) (hn : rest.length < n) :
    InPlace.skip t (out ++ (rest ++ [0])) n out.length = some (out.length + (rest.takeWhile fun c => c ∈ t).length) := by
  induction n generalizing out rest with
  | zero => exact absurd hn (Nat.not_lt_zero _)
  | succ n ih =>
    have hread := getElem?_front out (rest ++ [0]) 0
    rw [Nat.add_zero, List.drop_zero] at hread
    unfold InPlace.skip
    by_cases ht : t = []
    · subst ht
      rw [if_pos rfl]
      cases rest <;> simp
    rw [if_neg ht, hread]
    cases rest with
    | nil => rfl
    | cons c rest =>
      rw [List.cons_append, List.head?_cons, Option.bind_some]
      have hc : c ≠ 0 := by
        rintro rfl
        exact hnul (by simp)
      rw [if_neg hc]
      by_cases hmem : c ∈ t
      · have hsplit : out ++ (c :: (rest ++ [0])) = out ++ [c] ++ (rest ++ [0]) := by simp
        have hlength : (out ++ [c]).length = out.length + 1 := by simp
        have hnul' : (0 : Byte) ∉ out ++ [c] ++ rest := by simpa using hnul
        have hout' : ∀ d ∈ out ++ [c], d ∈ t := by
          intro d hd
          rcases List.mem_append.mp hd with hd | hd
          · exact hout d hd
          · rw [List.mem_singleton.mp hd]
            exact hmem
        have htake : ((c :: rest).takeWhile fun c => c ∈ t) = c :: rest.takeWhile fun c => c ∈ t :=
          List.takeWhile_cons_of_pos (by simpa using hmem)
        rw [if_pos hmem, hsplit, ← hlength, ih hnul' hout' (by simpa using hn), hlength, htake, List.length_cons,
          Nat.add_right_comm]
        rfl
      · have htake : ((c :: rest).takeWhile fun c => c ∈ t) = [] := List.takeWhile_cons_of_neg (by simpa using hmem)
        rw [if_neg hmem, htake]
        rfl

theorem move_eq (hnul : (0 : Byte) ∉ rest) (hleft : mid.drop k = rest ++ [0]) (hn : rest.length < n) :
    InPlace.move n (out ++ mid) out.length (out.length + k) =
      some (out ++ rest ++ mid.drop rest.length, (out ++ rest).length) := by
  induction n generalizing out mid rest with
  | zero => exact absurd hn (Nat.not_lt_zero _)
  | succ n ih =>
    have hread := getElem?_front out mid k
    unfold InPlace.move
    rw [hread, hleft]
    cases rest with
    | nil => simp
    | cons c rest =>
      have hc : c ≠ 0 := by
        rintro rfl
        exact hnul List.mem_cons_self
      have hlength := congrArg List.length hleft
      simp only [List.length_drop, List.length_append, List.length_cons] at hlength
      obtain ⟨m, mid, rfl⟩ := List.exists_cons_of_length_pos (show 0 < mid.length by omega)
      have hout : (out ++ [c]).length = out.length + 1 := by simp
      have hleft' : mid.drop k = rest ++ [0] := by
        have htail := congrArg List.tail hleft
        rwa [List.tail_drop, List.drop_succ_cons] at htail
      have hnul' : (0 : Byte) ∉ rest := fun hmem => hnul (List.mem_cons_of_mem _ hmem)
      have hrest := @ih (out ++ [c]) mid rest hnul' hleft' (by simpa using hn)
      rw [List.cons_append, List.head?_cons, Option.bind_some, if_neg hc, put_append, Option.bind_some, Nat.add_right_comm,
        ← hout, hrest]
      simp

theorem toEnd_eq (hnul : (0 : Byte) ∉ rest) (hn : rest.length < n) :
    InPlace.toEnd (out ++ (rest ++ [0])) n out.length = some (out ++ rest).length := by
  induction n generalizing out rest with
  | zero => exact absurd hn (Nat.not_lt_zero _)
  | succ n ih =>
    have hread := getElem?_front out (rest ++ [0]) 0
    rw [Nat.add_zero, List.drop_zero] at hread
    unfold InPlace.toEnd
    rw [hread]
    cases rest with
    | nil => simp
    | cons c rest =>
      have hc : c ≠ 0 := by
        rintro rfl
        exact hnul List.mem_cons_self
      have hsplit : out ++ (c :: (rest ++ [0])) = out ++ [c] ++ (rest ++ [0]) := by simp
      have hlength : (out ++ [c]).length = out.length + 1 := by simp
      have hnul' : (0 : Byte) ∉ rest := fun hmem => hnul (List.mem_cons_of_mem _ hmem)
      rw [List.cons_append, List.head?_cons, Option.bind_some, if_neg hc, hsplit, ← hlength, ih hnul' (by simpa using hn)]
      simp

/-- It goes past the front where all the characters are trimmed. -/
theorem back_eq (l behind t : Str) :
    InPlace.back t (l ++ behind) l.length =
      if l.rdropWhile (fun c => c ∈ t) = [] then none else some (l.rdropWhile fun c => c ∈ t).length := by
  induction l using List.reverseRecOn generalizing behind with
  | nil => rfl
  | append_singleton l c ih =>
    have hlength : (l ++ [c]).length = l.length + 1 := by simp
    have hread := getElem?_front l (c :: behind) 0
    have hsplit : l ++ [c] ++ behind = l ++ c :: behind := by simp
    rw [Nat.add_zero, List.drop_zero, List.head?_cons] at hread
    rw [hlength, InPlace.back, hsplit, hread, Option.bind_some, ih, List.rdropWhile_concat]
    by_cases hmem : c ∈ t
    · rw [if_pos hmem, if_pos (decide_eq_true hmem)]
    · have hne : ¬l ++ [c] = [] := by simp
      have hmem' : ¬decide (c ∈ t) = true := by simpa using hmem
      rw [if_neg hmem, if_neg hmem', if_neg hne, hlength]

theorem finish_none (ht : t ≠ []) (hl : (rest.rdropWhile fun c => c ∈ t) = []) (behind : Str) :
    InPlace.finish t (rest ++ behind, rest.length) = none := by
  unfold InPlace.finish
  rw [if_neg ht, back_eq, if_pos hl]
  rfl

theorem finish_some (hnul : (0 : Byte) ∉ rest) (hl : t = [] ∨ (rest.rdropWhile fun c => c ∈ t) ≠ []) {behind : Str}
    (hbehind : behind ≠ []) :
    ∃ b, InPlace.finish t (rest ++ behind, rest.length) = some b ∧ cstr b = rest.rdropWhile fun c => c ∈ t := by
  obtain ⟨u, hu⟩ := List.rdropWhile_prefix (fun c => decide (c ∈ t)) rest
  have hend : InPlace.finish t (rest ++ behind, rest.length) =
      put (rest ++ behind) (rest.rdropWhile fun c => c ∈ t).length 0 := by
    unfold InPlace.finish
    by_cases ht : t = []
    · subst ht
      have hsame : (rest.rdropWhile fun c => c ∈ ([] : Str)) = rest := List.rdropWhile_eq_self_iff.mpr (by simp)
      rw [if_pos rfl, hsame]
      rfl
    · rw [if_neg ht, back_eq, if_neg (hl.resolve_left ht)]
      rfl
  have hr : (0 : Byte) ∉ rest.rdropWhile fun c => c ∈ t := fun hmem => hnul (hu ▸ List.mem_append_left u hmem)
  generalize (rest.rdropWhile fun c => c ∈ t) = r at hu hend hr ⊢
  obtain ⟨d, back, hback⟩ := List.exists_cons_of_ne_nil (show u ++ behind ≠ [] by simp [hbehind])
  rw [← hu, List.append_assoc, hback, put_append] at hend
  rw [← hu, List.append_assoc, hback]
  refine ⟨_, hend, ?_⟩
  rw [List.append_assoc, cstr_append hr]
  exact List.append_nil r

theorem inPlace_iff (hs : (0 : Byte) ∉ s) :
    (∃ b, InPlace.trim (s ++ [0]) t = some b ∧ cstr b = trimmed s t) ↔ s ≠ [] ∨ t = [] := by
  have hskip := @skip_eq t [] s (s ++ [0]).length (by simpa using hs) (by simp) (by simp)
  have hsplit := @List.takeWhile_append_dropWhile _ (fun c => decide (c ∈ t)) s
  have hhead : (s.dropWhile fun c => c ∈ t) ≠ [] → ((s.dropWhile fun c => c ∈ t).rdropWhile fun c => c ∈ t) ≠ [] := by
    intro hne hnil
    have hnot := List.head_dropWhile_not (fun c => decide (c ∈ t)) hne
    have hall := List.rdropWhile_eq_nil_iff.mp hnil _ (List.head_mem hne)
    rw [hall] at hnot
    cases hnot
  simp only [List.nil_append, List.length_nil, Nat.zero_add] at hskip
  unfold trimmed InPlace.trim
  rw [hskip, Option.bind_some, ← rdropWhile_dropWhile]
  generalize (s.takeWhile fun c => c ∈ t) = front at hsplit ⊢
  generalize (s.dropWhile fun c => c ∈ t) = l at hsplit hhead ⊢
  subst hsplit
  rw [List.mem_append, not_or] at hs
  by_cases hfront : front = []
  · subst hfront
    have hend := @toEnd_eq [] l (l ++ [0]).length hs.2 (by simp)
    simp only [List.nil_append, List.length_nil] at hend
    rw [if_neg (not_not.mpr List.length_nil), List.nil_append, hend, Option.bind_some]
    constructor
    · rintro ⟨b, hb, -⟩
      by_contra hnot
      rw [not_or, not_not] at hnot
      rw [finish_none hnot.2 (by rw [hnot.1]; rfl)] at hb
      cases hb
    · intro hor
      refine finish_some hs.2 ?_ (List.cons_ne_nil _ _)
      exact hor.symm.imp_right hhead
  · have hpos := List.length_pos_iff.mpr hfront
    have hread := getElem?_front front (l ++ [0]) 0
    rw [Nat.add_zero, List.drop_zero, ← List.append_assoc] at hread
    rw [if_pos (Nat.ne_of_gt hpos), hread]
    refine iff_of_true ?_ (Or.inl (by simp [hfront]))
    cases l with
    | nil =>
      obtain ⟨c, front, rfl⟩ := List.exists_cons_of_ne_nil hfront
      have hput := put_append [] (front ++ [0]) c 0
      refine ⟨[] ++ [0] ++ (front ++ [0]), ?_, rfl⟩
      rw [List.nil_append, List.head?_cons, Option.bind_some, if_pos rfl, List.append_nil]
      exact hput
    | cons c l =>
      have hc : c ≠ 0 := by
        rintro rfl
        exact hs.2 List.mem_cons_self
      have hmove := @move_eq [] (front ++ (c :: l) ++ [0]) (c :: l) front.length (front ++ (c :: l) ++ [0]).length hs.2
        (by rw [List.append_assoc, List.drop_left]) (by simp; omega)
      simp only [List.nil_append, List.length_nil, Nat.zero_add] at hmove
      rw [List.cons_append, List.head?_cons, Option.bind_some, if_neg hc, hmove, Option.bind_some]
      refine finish_some hs.2 (Or.inr (hhead (List.cons_ne_nil _ _))) ?_
      intro hnil
      have hlength := congrArg List.length hnil
      simp only [List.length_drop, List.length_append, List.length_cons, List.length_nil] at hlength
      omega

/-- **Trimming.** The functions agree exactly where the front has no characters to be trimmed but spaces, and there is
something to trim in place. -/
theorem trim_agrees_iff (s t : Str) :
    Agrees s t ↔
      ((∀ c ∈ s, c ∈ t) ∨ (s.takeWhile fun c => c ∈ t) = s.takeWhile fun c => c = ch ' ') ∧ (s ≠ [] ∨ t = [] ∨ 0 ∈ t) := by
  unfold Agrees
  rw [trim_iff]
  refine and_congr_right fun _ => ?_
  by_cases ht : (0 : Byte) ∈ t
  · exact ⟨fun _ => Or.inr (Or.inr ht), fun _ _ hnot => absurd ht hnot⟩
  · by_cases hs : (0 : Byte) ∈ s
    · have hne : s ≠ [] := List.ne_nil_of_mem hs
      exact ⟨fun _ => Or.inl hne, fun _ hnot => absurd hs hnot⟩
    · rw [or_iff_left ht]
      constructor
      · exact fun h => (inPlace_iff hs).mp (h hs ht)
      · exact fun h _ _ => (inPlace_iff hs).mpr h

end

/-- `trim ("xa", "x")`. -/
theorem trim_keeps_front : ¬∀ s t : Str, Agrees s t := by
  intro h
  exact absurd (h (ascii "xa") (ascii "x")).1 (by decide)

end MyServer.Trim
