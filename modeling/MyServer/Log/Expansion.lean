import MyServer.Log.Manager

/-!
# The arguments of a log message

`LogManager::log` with a format, and what `oss <<` writes for each argument.
-/

namespace MyServer.Log

namespace LogManager

inductive Arg where
  | cString (text : Str)
  /-- A `std::string *`, with the string that it points to. -/
  | stdString (text : Str)
  | int (value : BitVec 32)
  | exception (what : Str)
  deriving DecidableEq

/-- Where the argument at each place points to; at one address there is one object. -/
structure Layout (args : List Arg) where
  address : Nat → Nat
  pos : ∀ k, 0 < address k
  apart : ∀ j k, address j = address k → args[j]? = args[k]?

/-! ## The code -/

/-- `oss <<` of a `void *`. -/
def pointer (address : Nat) : Str := ch '0' :: ch 'x' :: (Nat.toDigits 16 address).map ch

/-- The operand for `%S` is the pointer itself. -/
def Arg.written (address : Nat) : Arg → Str
  | .cString text => cstr text
  | .stdString _ => pointer address
  | .int value => ascii (toString value.toInt)
  | .exception what => cstr what

def written (address : Nat → Nat) (args : List Arg) : List Str := args.mapIdx fun k arg => arg.written (address k)

/-- What the streams are told to log. -/
def message (stamp : Str) (appendNL : Bool) (fmt : Str) (args : List Str) : Option Str :=
  (format fmt args).map fun text => if appendNL then stamp ++ text ++ newline else stamp ++ text

theorem logFormat_eq (m : LogManager) (owner : Owner) (type : Str) (level : LoggingLevel) (stamp : Str)
    (appendNL : Bool) (fmt : Str) (args : List Str) (answer : Triple → Answer) :
    m.logFormat owner type level stamp appendNL fmt args answer =
      if level.rank < m.level.rank then ⟨.returned true, [], m⟩
      else match message stamp appendNL fmt args with
        | none => ⟨.returned true, [], m⟩
        | some message => (m.notify (.log message level) answer (.type owner type)).caught false := by
  unfold logFormat message
  cases format fmt args <;> rfl

/-! ## What is to be written -/

def Arg.letter : Arg → Byte
  | .cString _ => ch 's'
  | .stdString _ => ch 'S'
  | .int _ => ch 'i'
  | .exception _ => ch 'e'

def Arg.contents : Arg → Str
  | .cString text => cstr text
  | .stdString text => text
  | .int value => ascii (toString value.toInt)
  | .exception what => cstr what

/-- The arguments are the ones of the directives, in their order, and the text is the format with their contents. -/
inductive Expands : Str → List Arg → Str → Prop
  | nil : Expands [] [] []
  | copy {fmt args text} {c : Byte} (hc : c ≠ ch '%') (h : Expands fmt args text) :
      Expands (c :: fmt) args (c :: text)
  | percent {fmt args text} (h : Expands fmt args text) :
      Expands (ch '%' :: ch '%' :: fmt) args (ch '%' :: text)
  | directive {fmt args text} (arg : Arg) (h : Expands fmt args text) :
      Expands (ch '%' :: arg.letter :: fmt) (arg :: args) (arg.contents ++ text)

/-- Wherever the strings are, the text stands between the time and the end of line. -/
def Writes (stamp : Str) (appendNL : Bool) (fmt : Str) (args : List Arg) (text : Str) : Prop :=
  ∀ layout : Layout args, message stamp appendNL fmt (written layout.address args) =
    some (stamp ++ text ++ if appendNL then newline else [])

def Arg.isStdString : Arg → Bool
  | .stdString _ => true
  | _ => false

/-! ## One directive -/

theorem format_copy {c : Byte} (hc : c ≠ ch '%') (fmt : Str) (texts : List Str) :
    format (c :: fmt) texts = (format fmt texts).map (c :: ·) := by
  rw [format.eq_def]
  simp only [if_neg hc]

theorem format_percent (fmt : Str) (texts : List Str) :
    format (ch '%' :: ch '%' :: fmt) texts = (format fmt texts).map (ch '%' :: ·) := by
  rw [format.eq_def]
  simp only [if_true, if_neg (show ¬ (ch '%' = ch 's' ∨ ch '%' = ch 'S' ∨ ch '%' = ch 'i' ∨ ch '%' = ch 'e') by decide)]

theorem letter_mem (arg : Arg) :
    arg.letter = ch 's' ∨ arg.letter = ch 'S' ∨ arg.letter = ch 'i' ∨ arg.letter = ch 'e' := by
  cases arg <;> simp [Arg.letter]

theorem format_directive (arg : Arg) (fmt text : Str) (texts : List Str) :
    format (ch '%' :: arg.letter :: fmt) (text :: texts) = (format fmt texts).map (text ++ ·) := by
  rw [format.eq_def]
  simp only [if_true, if_pos (letter_mem arg), List.tail_cons, List.headD_cons]

theorem written_cons (address : Nat → Nat) (arg : Arg) (args : List Arg) :
    written address (arg :: args) = arg.written (address 0) :: written (fun k => address (k + 1)) args :=
  List.mapIdx_cons

theorem Arg.written_eq_contents {arg : Arg} (h : arg.isStdString = false) (address : Nat) :
    arg.written address = arg.contents := by
  cases arg with
  | stdString text => exact absurd h (by simp [isStdString])
  | _ => rfl

/-! ## The whole format -/

theorem Expands.format_eq {fmt text : Str} {args : List Arg} (h : Expands fmt args text)
    (hargs : ∀ arg ∈ args, arg.isStdString = false) (address : Nat → Nat) :
    format fmt (written address args) = some text := by
  induction h generalizing address with
  | nil => rfl
  | copy hc _ ih => rw [format_copy hc, ih hargs, Option.map_some]
  | percent _ ih => rw [format_percent, ih hargs, Option.map_some]
  | directive arg _ ih =>
    obtain ⟨harg, hargs⟩ := List.forall_mem_cons.mp hargs
    rw [written_cons, format_directive, ih hargs, Option.map_some, arg.written_eq_contents harg]

/-- An address sixteen times as high has one more digit. -/
theorem length_pointer {address : Nat} (h : 0 < address) :
    (pointer (16 * address)).length = (pointer address).length + 1 := by
  have hdigits := Nat.toDigits_append_toDigits (b := 16) (by decide) h (show 0 < 16 by decide)
  rw [Nat.add_zero] at hdigits
  rw [pointer, pointer, ← hdigits]
  simp

theorem Arg.length_written (arg : Arg) {address : Nat} (h : 0 < address) :
    (arg.written (16 * address)).length = (arg.written address).length + if arg.isStdString then 1 else 0 := by
  cases arg with
  | stdString text => exact length_pointer h
  | _ => rfl

/-- The same strings elsewhere: the message gets longer with each of them. -/
theorem Expands.length_format {fmt text : Str} {args : List Arg} (h : Expands fmt args text) {address : Nat → Nat}
    (hpos : ∀ k, 0 < address k) :
    ∃ a b, format fmt (written address args) = some a ∧ format fmt (written (fun k => 16 * address k) args) = some b ∧
      b.length = a.length + args.countP Arg.isStdString := by
  induction h generalizing address with
  | nil => exact ⟨[], [], rfl, rfl, rfl⟩
  | @copy _ _ _ c hc _ ih =>
    obtain ⟨a, b, ha, hb, hlength⟩ := ih hpos
    refine ⟨c :: a, c :: b, by rw [format_copy hc, ha]; rfl, by rw [format_copy hc, hb]; rfl, ?_⟩
    rw [List.length_cons, List.length_cons, hlength]
    omega
  | percent _ ih =>
    obtain ⟨a, b, ha, hb, hlength⟩ := ih hpos
    refine ⟨_ :: a, _ :: b, by rw [format_percent, ha]; rfl, by rw [format_percent, hb]; rfl, ?_⟩
    rw [List.length_cons, List.length_cons, hlength]
    omega
  | directive arg _ ih =>
    obtain ⟨a, b, ha, hb, hlength⟩ := ih fun k => hpos (k + 1)
    refine ⟨_ ++ a, _ ++ b, by rw [written_cons, format_directive, ha]; rfl,
      by rw [written_cons, format_directive, hb]; rfl, ?_⟩
    rw [List.length_append, List.length_append, hlength, arg.length_written (hpos 0), List.countP_cons]
    omega

theorem message_eq_some_iff {stamp fmt text : Str} {appendNL : Bool} {args : List Str} :
    message stamp appendNL fmt args = some (stamp ++ text ++ if appendNL then newline else []) ↔
      format fmt args = some text := by
  unfold message
  cases appendNL <;> simp [Option.map_eq_some_iff]

/-- One behind the other. -/
def packed (args : List Arg) (size : Nat) (hsize : 0 < size) : Layout args where
  address k := size * (k + 1)
  pos k := Nat.mul_pos hsize k.succ_pos
  apart j k h := by rw [Nat.succ_injective (Nat.eq_of_mul_eq_mul_left hsize h)]

/-- **When the message is the format with its arguments**: no `std::string` is among them. -/
theorem writes_iff {fmt text : Str} {args : List Arg} (h : Expands fmt args text) (stamp : Str) (appendNL : Bool) :
    Writes stamp appendNL fmt args text ↔ ∀ arg ∈ args, arg.isStdString = false := by
  constructor
  · intro hwrites
    -- Strings of 32 bytes, and the same sixteen times as far apart.
    obtain ⟨a, b, ha, hb, hlength⟩ := h.length_format (packed args 32 (by decide)).pos
    have hnear := message_eq_some_iff.mp (hwrites (packed args 32 (by decide)))
    have hfar := message_eq_some_iff.mp (hwrites (packed args (16 * 32) (by decide)))
    have haddress : (fun k => 16 * (packed args 32 (by decide)).address k) =
        (packed args (16 * 32) (by decide)).address := funext fun k => (Nat.mul_assoc 16 32 (k + 1)).symm
    rw [haddress, hfar] at hb
    rw [hnear] at ha
    rw [← Option.some.inj ha, ← Option.some.inj hb, Nat.left_eq_add, List.countP_eq_zero] at hlength
    simpa using hlength
  · intro hargs layout
    exact message_eq_some_iff.mpr (h.format_eq hargs layout.address)

/-- A text, a number and a percent sign. -/
theorem writes_text_number : Writes [] true [ch '%', ch 's', ch ' ', ch '%', ch 'i', ch '%', ch '%']
    [.cString [ch 'a'], .int 5] [ch 'a', ch ' ', ch '5', ch '%'] :=
  (writes_iff (.directive (.cString [ch 'a']) (.copy (by decide) (.directive (.int 5) (.percent .nil)))) [] true).mpr
    (by simp [Arg.isStdString])

/-- `%S` writes the address. -/
theorem not_writes : ¬ ∀ (stamp : Str) (appendNL : Bool) (fmt text : Str) (args : List Arg),
    Expands fmt args text → Writes stamp appendNL fmt args text := by
  intro h
  have hwrites := h [] false _ _ _ (.directive (.stdString []) .nil) (packed _ 32 (by decide))
  exact absurd hwrites (by decide)

end LogManager

end MyServer.Log
