import MyServer.Log.FiltersChain

/-!
# Flushing filters that lie around each other

Filters around a stream are encoders, one inside the other: what the first one
sends, its footer at the end, is what the next one encodes. `flush` flushes
them all, and then asks for the footers from the stream on.
-/

namespace MyServer.Filter

variable {σ : Type}

/-! ## Encoders -/

namespace FilterKind

/-- What the filter sends while it is written to. -/
def sends (k : FilterKind σ) : σ → List Str → σ × List Str
  | s, [] => (s, [])
  | s, chunk :: chunks =>
    let wrote := k.write s chunk
    let rest := sends k wrote.1 chunks
    (rest.1, wrote.2 ++ rest.2)

/-- What it sends at the end: what was left to flush, and its footer. -/
def finish (k : FilterKind σ) (s : σ) : List Str :=
  (k.flush s).2.toList ++ [k.getFooter (k.flush s).1]

def encode (k : FilterKind σ) (chunks : List Str) : List Str :=
  k.getHeader :: (k.sends k.start chunks).2 ++ k.finish (k.sends k.start chunks).1

end FilterKind

/-- The filters one inside the other, the first one innermost. -/
def nested : List (FilterKind σ) → List Str → Str
  | [], chunks => chunks.flatten
  | k :: ks, chunks => nested ks (k.encode chunks)

/-- The same from the middle of the data on. -/
def nestedFrom : List (FilterKind σ) → List σ → List Str → Str
  | k :: ks, s :: ss, chunks => nestedFrom ks ss ((k.sends s chunks).2 ++ k.finish (k.sends s chunks).1)
  | _, _, chunks => chunks.flatten

/-! ## The chain -/

/-- The bytes that the loop of `flush` counts: each write of a footer reports what it sent to the stream. -/
def footersNbw : List (FilterKind σ) → List σ → Nat
  | k :: ks, s :: ss => footersNbw ks ss + (writeTo ks (footers ks ss).1 (k.getFooter s)).2.length
  | _, _ => 0

namespace FiltersChain

/-- `*nbw` of `flush`. -/
def flushNbw (c : FiltersChain σ) : Nat :=
  let flushed := flushFirst c.filters c.states
  flushed.2.length + footersNbw c.filters flushed.1

/-- A chain of these filters, and the headers that were sent. The last one is added first. -/
def build : List (FilterKind σ) → FiltersChain σ × Str
  | [] => (.empty, [])
  | k :: ks => (((build ks).1.addFilter k).1, (build ks).2 ++ ((build ks).1.addFilter k).2)

end FiltersChain

open FiltersChain

/-- The bytes on the stream are those of the nested encoders, and the count is that of the bytes. -/
structure Encodes (ks : List (FilterKind σ)) (messages : List Str) : Prop where
  bytes : (build ks).2 ++ ((build ks).1.writeAll messages).2 ++ ((build ks).1.writeAll messages).1.flush.2 =
    nested ks messages
  count : ((build ks).1.writeAll messages).1.flushNbw = ((build ks).1.writeAll messages).1.flush.2.length

/-! ## Chunk by chunk -/

/-- Pieces written one after the other, as a filter writes them to its parent. -/
def feed (ks : List (FilterKind σ)) : List σ → List Str → List σ × Str
  | ss, [] => (ss, [])
  | ss, piece :: pieces =>
    let parent := writeTo ks ss piece
    let rest := feed ks parent.1 pieces
    (rest.1, parent.2 ++ rest.2)

theorem foldl_feed (ks : List (FilterKind σ)) (pieces : List Str) (ss : List σ) (sent : Str) :
    pieces.foldl (fun sent piece => ((writeTo ks sent.1 piece).1, sent.2 ++ (writeTo ks sent.1 piece).2)) (ss, sent) =
      ((feed ks ss pieces).1, sent ++ (feed ks ss pieces).2) := by
  induction pieces generalizing ss sent with
  | nil => simp [feed]
  | cons piece pieces ih => simp [feed, ih]

theorem writeTo_cons (k : FilterKind σ) (ks : List (FilterKind σ)) (s : σ) (ss : List σ) (buffer : Str) :
    writeTo (k :: ks) (s :: ss) buffer =
      ((k.write s buffer).1 :: (feed ks ss (k.write s buffer).2).1, (feed ks ss (k.write s buffer).2).2) := by
  rw [writeTo]
  simp only [foldl_feed, List.nil_append]

theorem nestedFrom_chunk (ks : List (FilterKind σ)) (ss : List σ) (chunk : Str) (chunks : List Str) :
    nestedFrom ks ss (chunk :: chunks) =
      (writeTo ks ss chunk).2 ++ nestedFrom ks (writeTo ks ss chunk).1 chunks := by
  induction ks generalizing ss chunk chunks with
  | nil => simp [nestedFrom, writeTo]
  | cons k ks ih =>
    cases ss with
    | nil => simp [nestedFrom, writeTo]
    | cons s ss =>
      have hfeed : ∀ pieces rest ss, nestedFrom ks ss (pieces ++ rest) =
          (feed ks ss pieces).2 ++ nestedFrom ks (feed ks ss pieces).1 rest := by
        intro pieces rest
        induction pieces with
        | nil => intro ss; simp [feed]
        | cons piece pieces ih' => intro ss; simp [feed, ih, ih']
      rw [writeTo_cons, nestedFrom, nestedFrom, FilterKind.sends]
      simp [hfeed]

theorem nestedFrom_writeAll (c : FiltersChain σ) (messages : List Str) :
    nestedFrom c.filters c.states messages =
      (c.writeAll messages).2 ++ nestedFrom c.filters (c.writeAll messages).1.states [] := by
  induction messages generalizing c with
  | nil => simp [writeAll]
  | cons message messages ih =>
    rw [nestedFrom_chunk, writeAll]
    have hrest := ih (c.write message).1
    rw [write_filters] at hrest
    simp only [List.append_assoc, ← hrest]
    rfl

theorem footersNbw_eq (ks : List (FilterKind σ)) (ss : List σ) : footersNbw ks ss = (footers ks ss).2.length := by
  induction ks generalizing ss with
  | nil => rfl
  | cons k ks ih =>
    cases ss with
    | nil => rfl
    | cons s ss => simp [footersNbw, footers, ih]

/-- **The count** is right for every chain. -/
theorem flushNbw_eq (c : FiltersChain σ) : c.flushNbw = c.flush.2.length := by
  simp [flushNbw, FiltersChain.flush, footersNbw_eq]

/-! ## Kinds of filters -/

/-- Whether `flush` of a filter sends something on, and so flushes the parent. -/
inductive Flushing
  | never
  | always
  | maybe
deriving DecidableEq

/-- What a filter may do at the end: have a footer, and flush. -/
structure Shape where
  foot : Bool
  flushing : Flushing

namespace FilterKind

/-- The states that writing leads to. -/
inductive Reaches (k : FilterKind σ) : σ → Prop
  | start : Reaches k k.start
  | write {s} (buffer : Str) : Reaches k s → Reaches k (k.write s buffer).1

/-- A filter of a shape. Writing no bytes does nothing. -/
structure Has (k : FilterKind σ) (shape : Shape) : Prop where
  empty : ∀ s, k.write s [] = (s, [])
  foot : shape.foot = false → ∀ s, k.getFooter s = []
  passes : shape.flushing = .always → ∀ s, k.Reaches s → (k.flush s).2.isSome
  plain : shape.flushing = .never → ∀ s, k.flush s = (s, none)

end FilterKind

/-- What may stand in front of what, seen from the stream. -/
def Bears (a b : Shape) : Prop :=
  (a.foot = true → b.foot = false ∧ b.flushing = .never) ∧ (a.flushing ≠ .always → b.flushing = .never)

theorem writeTo_nil {ks : List (FilterKind σ)} {shapes : List Shape} (hks : List.Forall₂ FilterKind.Has ks shapes)
    (ss : List σ) : writeTo ks ss [] = (ss, []) := by
  cases hks with
  | nil => simp [writeTo]
  | cons hk _ =>
    cases ss with
    | nil => simp [writeTo]
    | cons s ss => simp [writeTo_cons, hk.empty, feed]

abbrev Reached (ks : List (FilterKind σ)) (ss : List σ) : Prop := List.Forall₂ FilterKind.Reaches ks ss

theorem Reached.writeTo {ks : List (FilterKind σ)} {ss : List σ} (h : Reached ks ss) (buffer : Str) :
    Reached ks (writeTo ks ss buffer).1 := by
  induction ks generalizing ss buffer with
  | nil =>
    cases h
    exact List.Forall₂.nil
  | cons k ks ih =>
    cases h with
    | cons hs hss =>
      have hfeed : ∀ pieces ss, Reached ks ss → Reached ks (feed ks ss pieces).1 := by
        intro pieces
        induction pieces with
        | nil => exact fun ss h => h
        | cons piece pieces ih' => exact fun ss h => ih' _ (ih h piece)
      rw [writeTo_cons]
      exact List.Forall₂.cons (hs.write buffer) (hfeed _ _ hss)

/-! ## Filters with nothing to do at the end -/

theorem flushFirst_plain {ks : List (FilterKind σ)} {shapes : List Shape}
    (hks : List.Forall₂ FilterKind.Has ks shapes) (hplain : ∀ shape ∈ shapes, shape.flushing = .never) (ss : List σ) :
    flushFirst ks ss = (ss, []) := by
  cases hks with
  | nil => simp [flushFirst]
  | cons hk _ =>
    cases ss with
    | nil => simp [flushFirst]
    | cons s ss => simp [flushFirst, hk.plain (hplain _ List.mem_cons_self)]

theorem footers_inert {ks : List (FilterKind σ)} {shapes : List Shape}
    (hks : List.Forall₂ FilterKind.Has ks shapes) (hfoot : ∀ shape ∈ shapes, shape.foot = false) (ss : List σ) :
    footers ks ss = (ss, []) := by
  induction hks generalizing ss with
  | nil => simp [footers]
  | cons hk hks ih =>
    obtain ⟨hshape, hfoot⟩ := List.forall_mem_cons.mp hfoot
    cases ss with
    | nil => simp [footers]
    | cons s ss => simp [footers, ih hfoot, hk.foot hshape, writeTo_nil hks]

theorem nestedFrom_inert {ks : List (FilterKind σ)} {shapes : List Shape}
    (hks : List.Forall₂ FilterKind.Has ks shapes)
    (hinert : ∀ shape ∈ shapes, shape.foot = false ∧ shape.flushing = .never) (ss : List σ) :
    nestedFrom ks ss [] = [] := by
  induction hks generalizing ss with
  | nil => simp [nestedFrom]
  | cons hk hks ih =>
    obtain ⟨⟨hfoot, hplain⟩, hinert⟩ := List.forall_mem_cons.mp hinert
    cases ss with
    | nil => simp [nestedFrom]
    | cons s ss =>
      rw [nestedFrom, FilterKind.sends, FilterKind.finish, hk.plain hplain, hk.foot hfoot]
      simp [nestedFrom_chunk, writeTo_nil hks, ih hinert]

/-! ## Flushing them all -/

/-- The footer that is written last, through filters that are done. -/
theorem footer_nested {ks : List (FilterKind σ)} {shape : Shape} {shapes : List Shape}
    (hks : List.Forall₂ FilterKind.Has ks shapes) (hbears : ∀ b ∈ shapes, Bears shape b) {ss : List σ}
    (hrest : (flushFirst ks ss).2 ++ (footers ks (flushFirst ks ss).1).2 = nestedFrom ks ss []) {footer : Str}
    (hfooter : shape.foot = false → footer = []) :
    (flushFirst ks ss).2 ++ (footers ks (flushFirst ks ss).1).2 ++
        (writeTo ks (footers ks (flushFirst ks ss).1).1 footer).2 = nestedFrom ks ss [footer] := by
  rw [nestedFrom_chunk]
  cases hfoot : shape.foot with
  | false => rw [hfooter hfoot, writeTo_nil hks, writeTo_nil hks, List.append_nil, List.nil_append, hrest]
  | true =>
    have hinert : ∀ b ∈ shapes, b.foot = false ∧ b.flushing = .never := fun b hb => (hbears b hb).1 hfoot
    rw [flushFirst_plain hks (fun b hb => (hinert b hb).2), footers_inert hks (fun b hb => (hinert b hb).1),
      nestedFrom_inert hks hinert]
    simp

/-- **`flush` sends what the nested encoders have left**, where nothing has to go through a filter that was
flushed already. -/
theorem flush_nested {ks : List (FilterKind σ)} {shapes : List Shape} (hks : List.Forall₂ FilterKind.Has ks shapes)
    (hgood : shapes.Pairwise Bears) {ss : List σ} (hss : Reached ks ss) :
    (flushFirst ks ss).2 ++ (footers ks (flushFirst ks ss).1).2 = nestedFrom ks ss [] := by
  induction hks generalizing ss with
  | nil => simp [flushFirst, footers, nestedFrom]
  | @cons k shape ks shapes hk hks ih =>
    rw [List.pairwise_cons] at hgood
    obtain ⟨hbears, hgood⟩ := hgood
    cases hss with
    | @cons _ s _ ss hs hss =>
      rw [nestedFrom, FilterKind.sends, FilterKind.finish, flushFirst]
      cases hout : (k.flush s).2 with
      | some b =>
        have hlast := footer_nested hks hbears (ih hgood (Reached.writeTo hss b))
          (fun hfoot => hk.foot hfoot (k.flush s).1)
        simp only [footers, Option.toList_some, List.nil_append, List.cons_append, List.append_assoc] at hlast ⊢
        rw [nestedFrom_chunk, ← hlast]
      | none =>
        have hplain : shape.flushing ≠ .always := by
          intro halways
          have hsome := hk.passes halways s hs
          rw [hout] at hsome
          cases hsome
        have hlast := footer_nested hks hbears (ih hgood hss) (fun hfoot => hk.foot hfoot (k.flush s).1)
        rw [flushFirst_plain hks (fun b hb => (hbears b hb).2 hplain)] at hlast
        simpa [footers] using hlast

/-! ## Whole sessions -/

theorem build_filters (ks : List (FilterKind σ)) : (build ks).1.filters = ks := by
  induction ks with
  | nil => rfl
  | cons k ks ih =>
    rw [build, addFilter]
    split_ifs
    · simp [ih]
    · simp [ih]

/-- The header goes to the filters that are there, also if it is empty. -/
theorem addFilter_eq {c : FiltersChain σ} {shapes : List Shape} (hc : List.Forall₂ FilterKind.Has c.filters shapes)
    (k : FilterKind σ) :
    c.addFilter k = (⟨k :: c.filters, k.start :: (writeTo c.filters c.states k.getHeader).1⟩,
      (writeTo c.filters c.states k.getHeader).2) := by
  rw [addFilter]
  split_ifs with hheader
  · simp [hheader, writeTo_nil hc]
  · rfl

theorem build_nested {ks : List (FilterKind σ)} {shapes : List Shape} (hks : List.Forall₂ FilterKind.Has ks shapes) :
    Reached ks (build ks).1.states ∧
      ∀ chunks, (build ks).2 ++ nestedFrom ks (build ks).1.states chunks = nested ks chunks := by
  induction hks with
  | nil => exact ⟨List.Forall₂.nil, fun chunks => rfl⟩
  | @cons k shape ks shapes hk hks ih =>
    obtain ⟨hreached, hnested⟩ := ih
    have hadd := addFilter_eq ((build_filters ks).symm ▸ hks) k
    rw [build_filters] at hadd
    rw [build, hadd]
    refine ⟨List.Forall₂.cons FilterKind.Reaches.start (hreached.writeTo _), fun chunks => ?_⟩
    rw [nestedFrom, List.append_assoc, ← nestedFrom_chunk, hnested]
    rfl

theorem reached_writeAll {c : FiltersChain σ} (hc : Reached c.filters c.states) (messages : List Str) :
    Reached c.filters (c.writeAll messages).1.states := by
  induction messages generalizing c with
  | nil => exact hc
  | cons message messages ih =>
    have hwrote : Reached (c.write message).1.filters (c.write message).1.states := hc.writeTo message
    exact ih hwrote

/-- Filters of such shapes encode one inside the other. -/
theorem encodes_of_bears {ks : List (FilterKind σ)} {shapes : List Shape}
    (hks : List.Forall₂ FilterKind.Has ks shapes) (hgood : shapes.Pairwise Bears) (messages : List Str) :
    Encodes ks messages := by
  obtain ⟨hreached, hnested⟩ := build_nested hks
  have hfilters : (build ks).1.filters = ks := build_filters ks
  have hwritten := reached_writeAll (c := (build ks).1) (hfilters.symm ▸ hreached) messages
  rw [hfilters] at hwritten
  have hall := nestedFrom_writeAll (build ks).1 messages
  rw [hfilters] at hall
  refine ⟨?_, flushNbw_eq _⟩
  rw [← hnested messages, hall, ← flush_nested hks hgood hwritten, List.append_assoc]
  simp [FiltersChain.flush, hfilters]

/-! ## Filters that pass their data on -/

/-- A filter of this shape that sends what it is given on. `piece` is what it would flush, `footer` what it would
have for a footer. -/
structure Mark where
  shape : Shape
  piece : Option Str
  footer : Str

namespace Mark

def flushed (m : Mark) : Option Str :=
  match m.shape.flushing with
  | .never => none
  | .always => some (m.piece.getD [])
  | .maybe => m.piece

def foot (m : Mark) : Str := if m.shape.foot then m.footer else []

def kind (m : Mark) : FilterKind Unit where
  name := []
  start := ()
  getHeader := []
  write _ buffer := ((), if buffer = [] then [] else [buffer])
  flush _ := ((), m.flushed)
  getFooter _ := m.foot

def own (m : Mark) : Str := m.flushed.getD [] ++ m.foot

/-- It has nothing to send. -/
def quiet (shape : Shape) : Mark := ⟨shape, none, []⟩

@[simp] theorem flushed_quiet (shape : Shape) : (quiet shape).flushed.getD [] = [] := by
  unfold quiet flushed
  cases shape.flushing <;> rfl

@[simp] theorem foot_quiet (shape : Shape) : (quiet shape).foot = [] := ite_self []

theorem has (m : Mark) : m.kind.Has m.shape where
  empty s := rfl
  foot hfoot s := by simp [kind, Mark.foot, hfoot]
  passes halways s _ := by simp [kind, flushed, halways]
  plain hnever s := by simp [kind, flushed, hnever]

end Mark

theorem writeTo_marks (ms : List Mark) (ss : List Unit) (buffer : Str) :
    writeTo (ms.map Mark.kind) ss buffer = (ss, buffer) := by
  induction ms generalizing ss buffer with
  | nil => simp [writeTo]
  | cons m ms ih =>
    cases ss with
    | nil => simp [writeTo]
    | cons s ss =>
      rw [List.map_cons, writeTo_cons]
      by_cases hbuffer : buffer = []
      · simp [Mark.kind, hbuffer, feed]
      · simp [Mark.kind, hbuffer, feed, ih]

theorem footers_marks (ms : List Mark) (ss : List Unit) (hss : ss.length = ms.length) :
    footers (ms.map Mark.kind) ss = (ss, ms.reverse.flatMap Mark.foot) := by
  induction ms generalizing ss with
  | nil => simp [footers]
  | cons m ms ih =>
    cases ss with
    | nil => simp at hss
    | cons s ss =>
      have hfoot : m.kind.getFooter s = m.foot := rfl
      rw [List.map_cons, footers, ih ss (by simpa using hss)]
      simp [writeTo_marks, hfoot]

theorem flushFirst_marks (ms : List Mark) (ss : List Unit) (hss : ss.length = ms.length) :
    flushFirst (ms.map Mark.kind) ss = (ss, (ms.takeWhile (·.flushed.isSome)).flatMap (·.flushed.getD [])) := by
  induction ms generalizing ss with
  | nil => simp [flushFirst]
  | cons m ms ih =>
    cases ss with
    | nil => simp at hss
    | cons s ss =>
      have hflush : m.kind.flush s = ((), m.flushed) := rfl
      rw [List.map_cons, flushFirst, hflush]
      cases hflushed : m.flushed with
      | none => simp [hflushed]
      | some piece => simp [hflushed, writeTo_marks, ih ss (by simpa using hss)]

theorem sends_marks (m : Mark) (s : Unit) (chunks : List Str) :
    (m.kind.sends s chunks).2.flatten = chunks.flatten := by
  induction chunks generalizing s with
  | nil => rfl
  | cons chunk chunks ih =>
    have hwrite : m.kind.write s chunk = ((), if chunk = [] then [] else [chunk]) := rfl
    rw [FilterKind.sends, hwrite]
    by_cases hchunk : chunk = []
    · simp [hchunk, ih]
    · simp [hchunk, ih]

theorem nested_marks (ms : List Mark) (chunks : List Str) :
    nested (ms.map Mark.kind) chunks = chunks.flatten ++ ms.flatMap Mark.own := by
  induction ms generalizing chunks with
  | nil => simp [nested]
  | cons m ms ih =>
    have hheader : m.kind.getHeader = [] := rfl
    have hfinish : ∀ s, (m.kind.finish s).flatten = m.own := by
      intro s
      have hflush : m.kind.flush s = ((), m.flushed) := rfl
      have hfoot : m.kind.getFooter () = m.foot := rfl
      rw [FilterKind.finish, hflush, hfoot, Mark.own]
      cases m.flushed <;> simp
    rw [List.map_cons, nested, ih, FilterKind.encode, hheader]
    simp [sends_marks, hfinish]

theorem build_marks (ms : List Mark) :
    (build (ms.map Mark.kind)).2 = [] ∧ (build (ms.map Mark.kind)).1.states.length = ms.length := by
  induction ms with
  | nil => exact ⟨rfl, rfl⟩
  | cons m ms ih =>
    have hheader : m.kind.getHeader = [] := rfl
    rw [List.map_cons, build, addFilter, if_pos hheader]
    simp [ih]

/-- What such filters send when nothing is written, and what they should. -/
theorem encodes_marks {ms : List Mark} (h : Encodes (ms.map Mark.kind) []) :
    (ms.takeWhile (·.flushed.isSome)).flatMap (·.flushed.getD []) ++ ms.reverse.flatMap Mark.foot =
      ms.flatMap Mark.own := by
  obtain ⟨hsent, hlength⟩ := build_marks ms
  have hbytes := h.bytes
  rw [nested_marks, hsent, writeAll, FiltersChain.flush, build_filters] at hbytes
  simpa [flushFirst_marks ms _ hlength, footers_marks ms _ hlength] using hbytes

/-! ## Every other order of shapes goes wrong -/

theorem exists_pair {shapes : List Shape} (h : ¬ shapes.Pairwise Bears) :
    ∃ before a between b behind, shapes = before ++ a :: (between ++ b :: behind) ∧ ¬ Bears a b := by
  rw [List.pairwise_iff_forall_sublist] at h
  push Not at h
  obtain ⟨a, b, hsub, hab⟩ := h
  obtain ⟨front, rest, rfl, ha, hb⟩ := List.cons_sublist_iff.mp hsub
  obtain ⟨before, between, rfl⟩ := List.append_of_mem ha
  obtain ⟨between', behind, rfl⟩ := List.append_of_mem (List.singleton_sublist.mp hb)
  exact ⟨before, a, between ++ between', b, behind, by simp, hab⟩

theorem has_marks (ms : List Mark) : List.Forall₂ FilterKind.Has (ms.map Mark.kind) (ms.map Mark.shape) := by
  rw [List.forall₂_map_left_iff, List.forall₂_map_right_iff]
  exact List.forall₂_same.mpr fun m _ => m.has

/-- Two marks among filters with nothing to send. -/
def twoMarks (before : List Shape) (a : Mark) (between : List Shape) (b : Mark) (behind : List Shape) : List Mark :=
  before.map Mark.quiet ++ a :: (between.map Mark.quiet ++ b :: behind.map Mark.quiet)

theorem shapes_twoMarks (before : List Shape) (a : Mark) (between : List Shape) (b : Mark) (behind : List Shape) :
    (twoMarks before a between b behind).map Mark.shape =
      before ++ a.shape :: (between ++ b.shape :: behind) := by
  have hquiet : ∀ l : List Shape, (l.map Mark.quiet).map Mark.shape = l := by
    intro l
    rw [List.map_map]
    exact List.map_id l
  simp only [twoMarks, List.map_append, List.map_cons, hquiet]

theorem encodes_twoMarks {before between behind : List Shape} {a b : Mark}
    (h : Encodes ((twoMarks before a between b behind).map Mark.kind) []) :
    ((twoMarks before a between b behind).takeWhile (·.flushed.isSome)).flatMap (·.flushed.getD []) ++
      (b.foot ++ a.foot) = a.own ++ b.own := by
  have hmarks := encodes_marks h
  have hquiet : ∀ l : List Shape, (l.map Mark.quiet).flatMap Mark.own = [] := by
    intro l
    simp [List.flatMap_map, Mark.own]
  have hfoot : ∀ l : List Shape, (l.map Mark.quiet).reverse.flatMap Mark.foot = [] := by
    intro l
    rw [List.flatMap_eq_nil_iff]
    intro m hm
    obtain ⟨shape, -, rfl⟩ := List.mem_map.mp (List.mem_reverse.mp hm)
    exact Mark.foot_quiet shape
  have hright : (twoMarks before a between b behind).flatMap Mark.own = a.own ++ b.own := by
    simp only [twoMarks, List.flatMap_append, List.flatMap_cons, hquiet, List.nil_append, List.append_nil]
  have hleft : (twoMarks before a between b behind).reverse.flatMap Mark.foot = b.foot ++ a.foot := by
    simp only [twoMarks, List.reverse_append, List.reverse_cons, List.flatMap_append, hfoot, List.flatMap_cons,
      List.flatMap_nil, List.nil_append, List.append_nil]
  rwa [hright, hleft] at hmarks

theorem exists_not_encodes {shapes : List Shape} (h : ¬ shapes.Pairwise Bears) :
    ∃ ks : List (FilterKind Unit), List.Forall₂ FilterKind.Has ks shapes ∧ ¬ Encodes ks [] := by
  obtain ⟨before, a, between, b, behind, rfl, hab⟩ := exists_pair h
  have hcases : a.foot = true ∧ (b.foot = true ∨ b.flushing ≠ .never) ∨
      a.flushing ≠ .always ∧ b.flushing ≠ .never := by
    unfold Bears at hab
    by_contra hnot
    rw [not_or, not_and_or, not_or, not_and_or] at hnot
    refine hab ⟨fun hafoot => ?_, fun haplain => ?_⟩
    · have hb := hnot.1.resolve_left (not_not.mpr hafoot)
      exact ⟨by simpa using hb.1, by simpa using hb.2⟩
    · exact not_not.mp (hnot.2.resolve_left (not_not.mpr haplain))
  rcases hcases with ⟨hafoot, hb⟩ | ⟨haplain, hbflushes⟩
  · -- The footer `1` of the one comes after all that the other sends, `2`, and should come before.
    have hhas := has_marks (twoMarks before ⟨a, none, [1]⟩ between ⟨b, some [2], [2]⟩ behind)
    rw [shapes_twoMarks] at hhas
    refine ⟨_, hhas, fun hencodes => ?_⟩
    have heq := congrArg List.getLast? (encodes_twoMarks hencodes)
    cases haflushing : a.flushing <;> cases hbfoot : b.foot <;> cases hbflushing : b.flushing <;>
      simp [Mark.foot, Mark.own, Mark.flushed, hafoot, haflushing, hbfoot, hbflushing] at heq hb
  · -- The flush stops before it comes to the `2`.
    have hhas := has_marks (twoMarks before ⟨a, none, []⟩ between ⟨b, some [2], []⟩ behind)
    rw [shapes_twoMarks] at hhas
    refine ⟨_, hhas, fun hencodes => ?_⟩
    have heq := encodes_twoMarks hencodes
    have hanone : (⟨a, none, []⟩ : Mark).flushed = none := by
      unfold Mark.flushed
      cases haflushing : a.flushing with
      | never => rfl
      | always => exact absurd haflushing haplain
      | maybe => rfl
    have hbsome : (⟨b, some [2], []⟩ : Mark).flushed = some [2] := by
      unfold Mark.flushed
      cases hbflushing : b.flushing with
      | never => exact absurd hbflushing hbflushes
      | always => rfl
      | maybe => rfl
    have hstop : ((twoMarks before ⟨a, none, []⟩ between ⟨b, some [2], []⟩ behind).takeWhile
        (·.flushed.isSome)).flatMap (·.flushed.getD []) = [] := by
      rw [List.flatMap_eq_nil_iff]
      intro m hm
      rw [twoMarks, List.takeWhile_append, List.takeWhile_cons_of_neg (by simp [hanone])] at hm
      have hmem : m ∈ before.map Mark.quiet := by
        split_ifs at hm
        · simpa using hm
        · exact List.takeWhile_subset _ hm
      obtain ⟨shape, -, rfl⟩ := List.mem_map.mp hmem
      exact Mark.flushed_quiet shape
    rw [hstop] at heq
    simp [Mark.foot, Mark.own, hanone, hbsome] at heq

/-- **The filters encode one inside the other**, whatever they do, when no filter with a footer and none that
does not flush is in front of one that has something to do at the end. -/
theorem flush_iff (shapes : List Shape) :
    (∀ (σ : Type) (ks : List (FilterKind σ)), List.Forall₂ FilterKind.Has ks shapes →
      ∀ messages, Encodes ks messages) ↔ shapes.Pairwise Bears := by
  constructor
  · intro h
    by_contra hbad
    obtain ⟨ks, hks, hnot⟩ := exists_not_encodes hbad
    exact hnot (h Unit ks hks [])
  · exact fun hgood σ ks hks messages => encodes_of_bears hks hgood messages

/-- Two filters with a footer: the inner one's, `1`, comes out last. -/
theorem not_flush : ¬ ∀ ks : List (FilterKind Unit), ∀ messages, Encodes ks messages := by
  intro h
  have hbytes := (h [Mark.kind ⟨⟨true, .always⟩, none, [1]⟩, Mark.kind ⟨⟨true, .always⟩, none, [2]⟩] [[7]]).bytes
  revert hbytes
  decide

end MyServer.Filter
