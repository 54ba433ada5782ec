import Mathlib.Data.List.Chain
import Mathlib.Tactic

/-!
# Line ends

A text in which every CR, LF and CRLF is replaced, and what comes of it when the text is taken in pieces: a CRLF
that two pieces share gives two ends.
-/

namespace MyServer.LineEnds

variable {α : Type} [DecidableEq α] (cr lf : α) (eol : List α)

def one (b : α) : List α := if b = cr ∨ b = lf then eol else [b]

def translate : List α → List α
  | [] => []
  | [b] => one cr lf eol b
  | b :: c :: text =>
    if b = cr ∧ c = lf then eol ++ translate text else one cr lf eol b ++ translate (c :: text)

/-- A CRLF ends in one text and goes on in the next. -/
def Cut (a b : List α) : Prop := a.getLast? = some cr ∧ b.head? = some lf

variable {cr lf eol} {a b text : List α} {c : α}

@[simp] theorem one_cr : one cr lf eol cr = eol := by simp [one]
@[simp] theorem one_lf : one cr lf eol lf = eol := by simp [one]

theorem one_of_ne (hcr : c ≠ cr) (hlf : c ≠ lf) : one cr lf eol c = [c] := by simp [one, hcr, hlf]

@[simp] theorem translate_nil : translate cr lf eol [] = [] := rfl

@[simp] theorem translate_crlf : translate cr lf eol (cr :: lf :: text) = eol ++ translate cr lf eol text := by
  simp [translate]

theorem translate_cons (h : ¬ (c = cr ∧ text.head? = some lf)) :
    translate cr lf eol (c :: text) = one cr lf eol c ++ translate cr lf eol text := by
  cases text with
  | nil => simp [translate]
  | cons d text =>
    rw [translate, if_neg]
    rintro ⟨rfl, rfl⟩
    exact h ⟨rfl, rfl⟩

omit [DecidableEq α] in
theorem Cut.cons (h : Cut cr lf a b) (c : α) : Cut cr lf (c :: a) b := by
  refine ⟨?_, h.2⟩
  rw [List.getLast?_cons, h.1]
  rfl

/-- **A text is read in two parts unless they cut a CRLF.** -/
theorem translate_append (h : ¬ Cut cr lf a b) :
    translate cr lf eol (a ++ b) = translate cr lf eol a ++ translate cr lf eol b := by
  fun_induction translate cr lf eol a with
  | case1 => rfl
  | case2 c =>
    rw [List.singleton_append, translate_cons]
    rintro ⟨rfl, hb⟩
    exact h ⟨rfl, hb⟩
  | case3 c d text hcrlf ih =>
    obtain ⟨rfl, rfl⟩ := hcrlf
    rw [List.cons_append, List.cons_append, translate_crlf, ih fun hcut => h ((hcut.cons _).cons _), List.append_assoc]
  | case4 c d text hcrlf ih =>
    rw [List.cons_append, translate_cons (by simpa using hcrlf), ih fun hcut => h (hcut.cons _), List.append_assoc]

section

variable (hne : cr ≠ lf)
include hne

/-- Of a CRLF that is cut both halves are replaced. -/
theorem translate_cut (h : Cut cr lf a b) : (translate cr lf eol a).length + (translate cr lf eol b).length =
    (translate cr lf eol (a ++ b)).length + eol.length := by
  obtain ⟨front, rfl⟩ := List.getLast?_eq_some_iff.mp h.1
  obtain ⟨back, rfl⟩ := List.head?_eq_some_iff.mp h.2
  have hfront : ∀ c (rest : List α), c ≠ lf → translate cr lf eol (front ++ c :: rest) =
      translate cr lf eol front ++ translate cr lf eol (c :: rest) := by
    intro c rest hc
    exact translate_append fun hcut => hc (Option.some.inj hcut.2)
  have hback : translate cr lf eol (lf :: back) = eol ++ translate cr lf eol back := by
    rw [translate_cons fun h => hne h.1.symm, one_lf]
  have hone : translate cr lf eol [cr] = eol := by simp [translate]
  rw [List.append_assoc, List.singleton_append, hfront cr [] hne, hfront cr _ hne, translate_crlf, hback, hone]
  simp only [List.length_append]
  omega

variable {pieces : List (List α)} (hpieces : ∀ p ∈ pieces, p ≠ [])
include hpieces

theorem length_translate_flatten_le :
    (translate cr lf eol pieces.flatten).length ≤ (pieces.flatMap (translate cr lf eol)).length := by
  induction pieces with
  | nil => simp
  | cons p pieces ih =>
    have hle := ih (List.forall_mem_cons.mp hpieces).2
    rw [List.flatten_cons, List.flatMap_cons, List.length_append]
    by_cases hcut : Cut cr lf p pieces.flatten
    · have := @translate_cut _ _ _ _ eol _ _ hne hcut
      omega
    · rw [translate_append hcut, List.length_append]
      omega

/-- **A text is read in pieces just when none of them cuts a CRLF.** -/
theorem flatMap_translate_iff (heol : eol ≠ []) :
    pieces.flatMap (translate cr lf eol) = translate cr lf eol pieces.flatten ↔
      pieces.IsChain fun a b => ¬ Cut cr lf a b := by
  induction pieces with
  | nil => simp
  | cons p pieces ih =>
    obtain ⟨hp, hpieces⟩ := List.forall_mem_cons.mp hpieces
    have hcut : Cut cr lf p pieces.flatten ↔ ∃ q ∈ pieces.head?, Cut cr lf p q := by
      cases pieces with
      | nil => simp [Cut]
      | cons q pieces =>
        obtain ⟨c, q, rfl⟩ := List.exists_cons_of_ne_nil (hpieces q List.mem_cons_self)
        simp [Cut]
    have hle := @length_translate_flatten_le _ _ cr lf eol hne pieces hpieces
    have hpos := List.length_pos_iff.mpr heol
    rw [List.isChain_cons, List.flatten_cons, List.flatMap_cons, ← ih hpieces]
    by_cases h : Cut cr lf p pieces.flatten
    · obtain ⟨q, hq, hpq⟩ := hcut.mp h
      refine iff_of_false (fun heq => ?_) fun hchain => hchain.1 q hq hpq
      have hlength := congrArg List.length heq
      have := @translate_cut _ _ _ _ eol _ _ hne h
      rw [List.length_append] at hlength
      omega
    · rw [translate_append h, List.append_cancel_left_eq]
      exact (and_iff_right fun q hq hpq => h (hcut.mpr ⟨q, hq, hpq⟩)).symm

end

/-! ## Other bytes, and the way back -/

theorem mem_translate_iff (hcr : c ≠ cr) (hlf : c ≠ lf) (heol : c ∉ eol) : c ∈ translate cr lf eol text ↔ c ∈ text := by
  have hone : ∀ d, c ∈ one cr lf eol d ↔ c = d := by
    intro d
    unfold one
    split_ifs with h
    · refine iff_of_false heol ?_
      rintro rfl
      exact h.elim hcr hlf
    · exact List.mem_singleton
  fun_induction translate cr lf eol text with
  | case1 => rfl
  | case2 d => rw [hone, List.mem_singleton]
  | case3 d e text hcrlf ih =>
    obtain ⟨rfl, rfl⟩ := hcrlf
    simp [ih, hcr, hlf, heol]
  | case4 d e text hcrlf ih =>
    rw [List.mem_append, hone, List.mem_cons]
    exact or_congr_right ih

theorem translate_of_notMem (hcr : cr ∉ text) (hlf : lf ∉ text) : translate cr lf eol text = text := by
  induction text with
  | nil => rfl
  | cons c text ih =>
    obtain ⟨hc, hcr⟩ := not_or.mp (mt List.mem_cons.mpr hcr)
    obtain ⟨hl, hlf⟩ := not_or.mp (mt List.mem_cons.mpr hlf)
    rw [translate_cons fun h => hc h.1.symm, one_of_ne (Ne.symm hc) (Ne.symm hl), ih hcr hlf, List.singleton_append]

/-- **Line ends of one byte are restored** from CRLFs. -/
theorem translate_translate (hcr : cr ∉ text) :
    translate cr lf [lf] (translate cr lf [cr, lf] text) = text := by
  induction text with
  | nil => rfl
  | cons c text ih =>
    obtain ⟨hc, hcr⟩ := not_or.mp (mt List.mem_cons.mpr hcr)
    rw [translate_cons fun h => hc h.1.symm]
    by_cases hlf : c = lf
    · rw [hlf, one_lf, List.cons_append, List.singleton_append, translate_crlf, ih hcr, List.singleton_append]
    · rw [one_of_ne (Ne.symm hc) hlf, List.singleton_append, translate_cons fun h => hc h.1.symm,
        one_of_ne (Ne.symm hc) hlf, ih hcr, List.singleton_append]

end MyServer.LineEnds
