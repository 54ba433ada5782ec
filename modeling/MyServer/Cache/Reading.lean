import MyServer.Bytes
import MyServer.Lib.Cells
import MyServer.Lib.Safety

/-!
# Reading a cached file

A `CachedFile` has the bytes in memory and a cursor of its own; a `File` asks the system.
-/

open MyServer.Cells MyServer.Safety

namespace MyServer.Cache

/-- One `read` of a file on disk moves all that is asked for and is there, up to a bound that is an `int`. -/
structure Disk where
  readMax : Nat
  readMax_lt : readMax < 2 ^ 31
  /-- What `new char[]` finds in memory. -/
  junk : Nat → Byte

/-! ## `Socket` -/

/-- What the system takes of the bytes that are offered to it behind others, `none` where it throws. -/
structure Socket where
  throttlingRate : Nat
  rawSend : Nat → Nat → Option Nat
  rawSend_le : ∀ offset n sent, rawSend offset n = some sent → sent ≤ n

namespace Socket

variable (s : Socket)

/-- The loop of `send` with a throttling rate. It goes on for ever where nothing is taken. -/
def sendChunks (len : Nat) : Nat → Nat → Option Unit
  | 0, _ => none
  | n + 1, toSend =>
    (s.rawSend (len - toSend) (min toSend 1024)).bind fun ret =>
    if toSend - ret = 0 then some () else if ret = 0 then none else sendChunks len n (toSend - ret)

/-- A negative length is none for the system. -/
def send (len : BitVec 32) : Option Nat :=
  if len.toInt < 0 then none
  else if s.throttlingRate = 0 then s.rawSend 0 len.toNat
  else (s.sendChunks len.toNat (len.toNat + 1) len.toNat).map fun _ => len.toNat

/-- The bytes that are sent. -/
def write (bytes : Str) : Option Str := (s.send (BitVec.ofNat 32 bytes.length)).map fun n => bytes.take n

end Socket

/-! ## `File` -/

structure File where
  content : Str
  position : Nat

namespace File

/-- The return value, what is put into the buffer, and the file. -/
def read (d : Disk) (buffersize : Nat) (f : File) : Int × Str × File :=
  let bytes := (f.content.drop f.position).take (min buffersize d.readMax)
  (0, bytes, { f with position := f.position + bytes.length })

def seek (initialByte : Nat) (f : File) : Int × File := (0, { f with position := initialByte })

def getSeek (f : File) : Option Nat := some f.position

end File

/-! ## `CachedFile` -/

structure CachedFileBuffer where
  buffer : Str
  fileSize : Nat

/-- `CachedFileBuffer::CachedFileBuffer (File*)`. -/
def CachedFileBuffer.load (d : Disk) (file : File) : CachedFileBuffer :=
  let fileSize := file.content.length
  ⟨Heap.splice ((List.range fileSize).map d.junk) 0 ((file.seek 0).2.read d fileSize).2.1, fileSize⟩

structure CachedFile where
  buffer : CachedFileBuffer
  fseek : Nat

namespace CachedFile

/-- `none` where bytes behind the buffer are read. -/
def read (buffersize : Nat) (f : CachedFile) : Option (Int × Str × CachedFile) :=
  let toRead := min (if f.fseek ≤ f.buffer.fileSize then f.buffer.fileSize - f.fseek
    else 2 ^ 64 + f.buffer.fileSize - f.fseek) buffersize
  if f.fseek + toRead ≤ f.buffer.buffer.length then
    some (if toRead = 0 then 1 else 0, (f.buffer.buffer.drop f.fseek).take toRead, { f with fseek := f.fseek + toRead })
  else none

def seek (initialByte : Nat) (f : CachedFile) : Int × CachedFile :=
  if f.buffer.fileSize < initialByte then (-1, f) else (0, { f with fseek := initialByte })

/-- It is that of `File`, and the handle is −1. -/
def getSeek (_ : CachedFile) : Option Nat := none

def fastCopyToSocket (dest : Socket) (firstByte : Nat) (f : CachedFile) : Option Str :=
  if f.buffer.fileSize < firstByte then none else dest.write (f.buffer.buffer.drop firstByte)

end CachedFile

/-! ## Both together -/

/-- A call on a file of this size. -/
inductive FileCall (size : Nat) where
  | seek (initialByte : Nat) (le : initialByte ≤ size)
  | read (buffersize : Nat)
  | getSeek
  | fastCopyToSocket (dest : Socket) (firstByte : Nat) (le : firstByte ≤ size)

structure Both where
  cached : CachedFile
  plain : File

namespace Both

section

variable (d : Disk) {size : Nat}

def step (b : Both) : FileCall size → Option Both
  | .seek initialByte _ => some ⟨(b.cached.seek initialByte).2, (b.plain.seek initialByte).2⟩
  | .read buffersize => (b.cached.read buffersize).map fun r => ⟨r.2.2, (b.plain.read d buffersize).2.2⟩
  | .getSeek => some b
  | .fastCopyToSocket _ _ _ => some b

/-- Both give the same, and stand at the same place afterwards. -/
def Right (b : Both) (c : FileCall size) : Prop :=
  (∃ b', b.step d c = some b' ∧ b'.cached.fseek = b'.plain.position) ∧
    match c with
    | .seek _ _ => True
    | .read buffersize => (b.cached.read buffersize).map (fun r => r.2.1) = some (b.plain.read d buffersize).2.1
    | .getSeek => b.cached.getSeek = b.plain.getSeek
    | .fastCopyToSocket dest firstByte _ =>
      b.cached.fastCopyToSocket dest firstByte = some (b.plain.content.drop firstByte)

/-- What lies in the buffer where the file was not read any more. -/
def Loaded (content : Str) (position n : Nat) : Prop :=
  ∀ i < n, d.readMax ≤ position + i → content[position + i]? = some (d.junk (position + i))

/-- The bytes were loaded; a `read` asks for no more than the system moves, a socket takes all that it is offered,
and the position is not asked for. -/
def Admits (b : Both) : FileCall size → Prop
  | .seek _ _ => True
  | .read buffersize => min buffersize (b.plain.content.length - b.plain.position) ≤ d.readMax ∧
      Loaded d b.plain.content b.plain.position (min buffersize (b.plain.content.length - b.plain.position))
  | .getSeek => False
  | .fastCopyToSocket dest firstByte _ =>
      dest.send (BitVec.ofNat 32 (size - firstByte)) = some (size - firstByte) ∧
        Loaded d b.plain.content firstByte (size - firstByte)

end

/-- The file as the factory opens it, twice. -/
def opened (d : Disk) (content : Str) : Both := ⟨⟨CachedFileBuffer.load d ⟨content, 0⟩, 0⟩, ⟨content, 0⟩⟩

structure Kept (d : Disk) (content : Str) (b : Both) : Prop where
  buffer : b.cached.buffer = CachedFileBuffer.load d ⟨content, 0⟩
  text : b.plain.content = content
  position : b.cached.fseek = b.plain.position
  le : b.plain.position ≤ content.length

instance (d : Disk) (content : Str) (position n : Nat) : Decidable (Loaded d content position n) := by
  unfold Loaded
  infer_instance

instance {size : Nat} (d : Disk) (b : Both) (c : FileCall size) : Decidable (b.Admits d c) := by
  cases c <;> unfold Admits <;> infer_instance

section

variable {d : Disk} {content : Str} {b : Both} {c : FileCall content.length} {buffersize position n : Nat}

/-! ## The buffer -/

theorem load_eq (d : Disk) (content : Str) : CachedFileBuffer.load d ⟨content, 0⟩ =
    ⟨Heap.splice ((List.range content.length).map d.junk) 0 (content.take (min content.length d.readMax)), content.length⟩ :=
  rfl

theorem length_load (d : Disk) (content : Str) : (CachedFileBuffer.load d ⟨content, 0⟩).buffer.length = content.length := by
  rw [load_eq]
  dsimp only
  rw [Heap.length_splice, List.length_map, List.length_range]
  rw [List.length_map, List.length_range, List.length_take]
  omega

theorem load_getElem? (d : Disk) (content : Str) (i : Nat) :
    (CachedFileBuffer.load d ⟨content, 0⟩).buffer[i]? =
      if i < d.readMax then content[i]? else if i < content.length then some (d.junk i) else none := by
  have hlength : (content.take (min content.length d.readMax)).length = min content.length d.readMax := by
    rw [List.length_take]
    omega
  rw [load_eq]
  dsimp only
  rw [getElem?_splice (by rw [List.length_map, List.length_range]; omega), if_neg (Nat.not_lt_zero i), Nat.zero_add, hlength,
    Nat.sub_zero, List.getElem?_map]
  by_cases hlt : i < content.length
  · rw [List.getElem?_range hlt, if_pos hlt]
    by_cases hmax : i < d.readMax
    · rw [if_pos (by omega), if_pos hmax, List.getElem?_take_of_lt (by omega)]
    · rw [if_neg (by omega), if_neg hmax]
      rfl
  · rw [if_neg (by omega), if_neg hlt, List.getElem?_eq_none (by rw [List.length_range]; omega)]
    split_ifs
    · exact (List.getElem?_eq_none (by omega)).symm
    · rfl

/-- **What is read from the buffer** is what is in the file, as far as it was loaded. -/
theorem load_drop_take_iff (hle : position + n ≤ content.length) :
    (((CachedFileBuffer.load d ⟨content, 0⟩).buffer.drop position).take n = (content.drop position).take n) ↔
      Loaded d content position n := by
  constructor
  · intro heq i hi hmax
    have hat := congrArg (·[i]?) heq
    simp only [List.getElem?_take_of_lt hi, List.getElem?_drop, load_getElem?] at hat
    rw [if_neg (Nat.not_lt.mpr hmax), if_pos (by omega)] at hat
    exact hat.symm
  · intro hloaded
    apply List.ext_getElem?
    intro i
    rcases Nat.lt_or_ge i n with hi | hi
    · rw [List.getElem?_take_of_lt hi, List.getElem?_take_of_lt hi, List.getElem?_drop, List.getElem?_drop, load_getElem?]
      by_cases hmax : position + i < d.readMax
      · rw [if_pos hmax]
      · rw [if_neg hmax, if_pos (by omega), hloaded i hi (Nat.le_of_not_lt hmax)]
    · rw [List.getElem?_eq_none ((List.length_take_le _ _).trans hi), List.getElem?_eq_none ((List.length_take_le _ _).trans hi)]

/-! ## The calls -/

theorem read_cached (hb : b.Kept d content) (buffersize : Nat) :
    ∃ ret, b.cached.read buffersize = some (ret,
      ((CachedFileBuffer.load d ⟨content, 0⟩).buffer.drop b.plain.position).take
        (min buffersize (content.length - b.plain.position)),
      { b.cached with fseek := b.plain.position + min buffersize (content.length - b.plain.position) }) := by
  have hle := hb.le
  have hlength := length_load d content
  have hsize : b.cached.buffer.fileSize = content.length := by rw [hb.buffer, load_eq]
  unfold CachedFile.read
  rw [hb.position, hsize, if_pos hle, hb.buffer, hlength, Nat.min_comm]
  dsimp only
  rw [if_pos (by omega), ← hb.buffer]
  exact ⟨_, rfl⟩

theorem read_right_iff (hb : b.Kept d content) :
    b.Right d (.read buffersize : FileCall content.length) ↔ b.Admits d (.read buffersize : FileCall content.length) := by
  obtain ⟨ret, hcached⟩ := read_cached hb buffersize
  have hle := hb.le
  have hbuffer := length_load d content
  have hplain : (b.plain.read d buffersize).2.1 = (content.drop b.plain.position).take (min buffersize d.readMax) := by
    rw [File.read, hb.text]
  have hposition : (b.plain.read d buffersize).2.2.position =
      b.plain.position + ((content.drop b.plain.position).take (min buffersize d.readMax)).length := by
    rw [File.read, hb.text]
  simp only [Right, Admits, step, hcached, Option.map_some, hplain, hb.text]
  rw [Option.some_inj]
  generalize hn : min buffersize (content.length - b.plain.position) = n
  have hroom : b.plain.position + n ≤ content.length := by omega
  constructor
  · rintro ⟨-, hbytes⟩
    have hcount := congrArg List.length hbytes
    rw [List.length_take, List.length_drop, List.length_take, List.length_drop, hbuffer] at hcount
    have hmax : n ≤ d.readMax := by omega
    refine ⟨hmax, (load_drop_take_iff hroom).mp (hbytes.trans ?_)⟩
    rw [List.take_eq_take_iff, List.length_drop]
    omega
  · rintro ⟨hmax, hloaded⟩
    have hsame : (content.drop b.plain.position).take (min buffersize d.readMax) = (content.drop b.plain.position).take n := by
      rw [List.take_eq_take_iff, List.length_drop]
      omega
    refine ⟨⟨_, rfl, ?_⟩, ?_⟩
    · dsimp only
      rw [hposition, hsame, List.length_take, List.length_drop]
      omega
    · rw [hsame]
      exact (load_drop_take_iff hroom).mpr hloaded

theorem send_le {dest : Socket} {len : BitVec 32} {sent : Nat} (hsend : dest.send len = some sent) : sent ≤ len.toNat := by
  unfold Socket.send at hsend
  split_ifs at hsend
  · exact dest.rawSend_le _ _ _ hsend
  · obtain ⟨u, -, rfl⟩ := Option.map_eq_some_iff.mp hsend
    exact le_rfl

theorem copy_right_iff (hb : b.Kept d content) {dest : Socket} {firstByte : Nat} (le : firstByte ≤ content.length) :
    b.Right d (.fastCopyToSocket dest firstByte le) ↔ b.Admits d (.fastCopyToSocket dest firstByte le) := by
  have hlength := length_load d content
  have hsize : b.cached.buffer.fileSize = content.length := by rw [hb.buffer, load_eq]
  have hcopy : b.cached.fastCopyToSocket dest firstByte =
      (dest.send (BitVec.ofNat 32 (content.length - firstByte))).map fun n =>
        ((CachedFileBuffer.load d ⟨content, 0⟩).buffer.drop firstByte).take n := by
    unfold CachedFile.fastCopyToSocket Socket.write
    rw [hsize, if_neg (Nat.not_lt.mpr le), hb.buffer, List.length_drop, hlength]
  have hwhole : (content.drop firstByte).take (content.length - firstByte) = content.drop firstByte :=
    List.take_of_length_le (by rw [List.length_drop])
  have hroom : firstByte + (content.length - firstByte) ≤ content.length := by omega
  simp only [Right, Admits, step, hcopy, hb.text]
  constructor
  · rintro ⟨-, hsent⟩
    obtain ⟨n, hn, hbytes⟩ := Option.map_eq_some_iff.mp hsent
    have hle := send_le hn
    have hcount := congrArg List.length hbytes
    rw [List.length_take, List.length_drop, List.length_drop, hlength] at hcount
    have hmod := Nat.mod_le (content.length - firstByte) (2 ^ 32)
    rw [BitVec.toNat_ofNat] at hle
    obtain rfl : n = content.length - firstByte := by omega
    exact ⟨hn, (load_drop_take_iff hroom).mp (hbytes.trans hwhole.symm)⟩
  · rintro ⟨hsend, hloaded⟩
    refine ⟨⟨b, rfl, hb.position⟩, ?_⟩
    rw [hsend, Option.map_some, (load_drop_take_iff hroom).mpr hloaded, hwhole]

theorem right_iff (hb : b.Kept d content) : b.Right d c ↔ b.Admits d c := by
  cases c with
  | seek initialByte le =>
    have hsize : b.cached.buffer.fileSize = content.length := by rw [hb.buffer, load_eq]
    refine iff_of_true ⟨⟨_, rfl, ?_⟩, trivial⟩ trivial
    unfold CachedFile.seek
    rw [hsize, if_neg (Nat.not_lt.mpr le)]
    rfl
  | read buffersize => exact read_right_iff hb
  | getSeek =>
    refine iff_of_false ?_ id
    rintro ⟨-, hsame⟩
    cases hsame
  | fastCopyToSocket dest firstByte le => exact copy_right_iff hb le

theorem opened_kept (d : Disk) (content : Str) : (opened d content).Kept d content := ⟨rfl, rfl, rfl, Nat.zero_le _⟩

theorem step_kept {b' : Both} (hb : b.Kept d content) (hadmits : b.Admits d c) (hstep : b.step d c = some b') :
    b'.Kept d content := by
  have hsize : b.cached.buffer.fileSize = content.length := by rw [hb.buffer, load_eq]
  obtain ⟨⟨b₁, hb₁, hposition⟩, -⟩ := (right_iff hb).mpr hadmits
  obtain rfl := Option.some.inj (hb₁.symm.trans hstep)
  cases c with
  | seek initialByte le =>
    cases hstep
    refine ⟨?_, hb.text, hposition, le⟩
    unfold CachedFile.seek
    rw [hsize, if_neg (Nat.not_lt.mpr le)]
    exact hb.buffer
  | read buffersize =>
    obtain ⟨ret, hcached⟩ := read_cached hb buffersize
    rw [step, hcached] at hstep
    cases hstep
    refine ⟨hb.buffer, hb.text, hposition, ?_⟩
    rw [← hposition]
    have hle := hb.le
    dsimp only
    omega
  | getSeek =>
    cases hstep
    exact hb
  | fastCopyToSocket dest firstByte le =>
    cases hstep
    exact hb

end

end Both

end MyServer.Cache
