import MyServer.Bytes

/-!
# Sending with a throttling rate

`Socket::send` (socket.cpp) and `Thread::wait` (thread.cpp). Ticks are microseconds.
-/

namespace MyServer.Throttling

/-! ## The code -/

/-- What the system does in the rounds of a call: how much it takes of what it is offered, and the clock before
the block is sent and after it. -/
structure System where
  rawSend : Nat → Nat → Nat
  before : Nat → UInt64
  after : Nat → UInt64
  le : ∀ k n, rawSend k n ≤ n
  pos : ∀ k n, 0 < n → 0 < rawSend k n
  during : ∀ k, before k ≤ after k
  between : ∀ k, after k ≤ before (k + 1)

/-- A call of `rawSend`: where its buffer begins, how long it is, and how much is taken of it. -/
structure Block where
  offset : Nat
  offered : Nat
  taken : Nat

structure Pause where
  time : UInt64
  now : UInt64
  usec : UInt32

structure Sent where
  ret : Nat
  blocks : List Block
  pauses : List Pause

/-- The time between two blocks. -/
def period (throttlingRate : UInt64) : UInt64 := 1024000 / throttlingRate

/-- `usleep` has 32 bits for the time. -/
def wait (time now : UInt64) : Pause := ⟨time, now, (now - time).toUInt32⟩

def sendLoop (sys : System) (throttlingRate : UInt64) (len : Nat) : Nat → Nat → Nat → Option Sent
  | 0, _, _ => none
  | fuel + 1, k, toSend =>
    let time := sys.before k + period throttlingRate
    let offered := if toSend < 1024 then toSend else 1024
    let ret := sys.rawSend k offered
    let block : Block := ⟨len - toSend, offered, ret⟩
    let toSend := toSend - ret
    if toSend ≠ 0 then
      (sendLoop sys throttlingRate len fuel (k + 1) toSend).map fun sent =>
        { sent with blocks := block :: sent.blocks, pauses := wait time (sys.after k) :: sent.pauses }
    else some ⟨len - toSend, [block], []⟩

/-- A round takes at least one byte, when there is one. -/
def send (sys : System) (throttlingRate : UInt64) (len : Nat) : Option Sent :=
  if throttlingRate = 0 then some ⟨sys.rawSend 0 len, [⟨0, len, sys.rawSend 0 len⟩], []⟩
  else sendLoop sys throttlingRate len (len + 1) 0 len

/-! ## What it is to do -/

/-- What is handed over of the buffer. -/
def Sent.handed (sent : Sent) (buffer : Str) : Str :=
  sent.blocks.flatMap fun b => (buffer.drop b.offset).take b.taken

/-- The time left until the next block, which begins `period` behind the one before. -/
def timeLeft (throttlingRate before now : UInt64) : Nat :=
  before.toNat + (period throttlingRate).toNat - now.toNat

/-- All the bytes are sent, in their order and from inside the buffer, and no wait is too long. -/
structure Sent.Right (sent : Sent) (sys : System) (throttlingRate : UInt64) (buffer : Str) : Prop where
  ret : sent.ret = buffer.length
  handed : sent.handed buffer = buffer
  inside : ∀ b ∈ sent.blocks, b.offset + b.offered ≤ buffer.length
  waits : ∀ k (h : k < sent.pauses.length),
    (sent.pauses.get ⟨k, h⟩).usec.toNat ≤ timeLeft throttlingRate (sys.before k) (sys.after k)

/-- What is left after so many rounds. -/
def left (sys : System) (len : Nat) : Nat → Nat
  | 0 => len
  | k + 1 => left sys len k - sys.rawSend k (min (left sys len k) 1024)

/-- The clock stands at the time of the next block, or a multiple of 2^32 behind it. -/
def OnTime (throttlingRate before after : UInt64) : Prop :=
  ∃ n, after.toNat = before.toNat + (period throttlingRate).toNat + n * 2 ^ 32

/-! ## The rounds -/

theorem left_le (sys : System) (len k : Nat) : left sys len k ≤ len := by
  induction k with
  | zero => exact le_rfl
  | succ k ih => exact (Nat.sub_le _ _).trans ih

theorem left_succ_lt {sys : System} {len k : Nat} (h : 0 < left sys len k) :
    left sys len (k + 1) < left sys len k := by
  have hpos := sys.pos k (min (left sys len k) 1024) (by omega)
  rw [left]
  omega

theorem left_antitone (sys : System) (len : Nat) {j k : Nat} (h : j ≤ k) : left sys len k ≤ left sys len j := by
  induction h with
  | refl => exact le_rfl
  | step _ ih => exact (Nat.sub_le _ _).trans ih

/-- What a call has sent from round `k` on. -/
structure From (sys : System) (throttlingRate : UInt64) (buffer : Str) (k : Nat) (sent : Sent) : Prop where
  ret : sent.ret = buffer.length
  handed : sent.handed buffer = buffer.drop (buffer.length - left sys buffer.length k)
  inside : ∀ b ∈ sent.blocks, b.offset + b.offered ≤ buffer.length
  pauses : ∀ j, (∃ h : j < sent.pauses.length, sent.pauses.get ⟨j, h⟩ =
    wait (sys.before (k + j) + period throttlingRate) (sys.after (k + j))) ∨ sent.pauses.length ≤ j
  many : ∀ j, j < sent.pauses.length ↔ left sys buffer.length (k + j + 1) ≠ 0

theorem handed_cons (b : Block) (sent : Sent) (pauses : List Pause) (buffer : Str) :
    Sent.handed { sent with blocks := b :: sent.blocks, pauses := pauses } buffer =
      (buffer.drop b.offset).take b.taken ++ sent.handed buffer := by
  simp [Sent.handed]

/-- The block of round `k`. -/
def blockAt (sys : System) (len k : Nat) : Block :=
  ⟨len - left sys len k, min (left sys len k) 1024, sys.rawSend k (min (left sys len k) 1024)⟩

theorem blockAt_inside (sys : System) (len k : Nat) :
    (blockAt sys len k).offset + (blockAt sys len k).offered ≤ len := by
  have hle := left_le sys len k
  dsimp only [blockAt]
  omega

theorem sendLoop_succ (sys : System) (throttlingRate : UInt64) (len fuel k : Nat) :
    sendLoop sys throttlingRate len (fuel + 1) k (left sys len k) =
      if left sys len (k + 1) ≠ 0 then
        (sendLoop sys throttlingRate len fuel (k + 1) (left sys len (k + 1))).map fun sent =>
          { sent with
            blocks := blockAt sys len k :: sent.blocks
            pauses := wait (sys.before k + period throttlingRate) (sys.after k) :: sent.pauses }
      else some ⟨len - left sys len (k + 1), [blockAt sys len k], []⟩ := by
  have hoffered : (if left sys len k < 1024 then left sys len k else 1024) = min (left sys len k) 1024 := by
    split_ifs <;> omega
  rw [sendLoop, hoffered, ← left]
  rfl

section

variable {sys : System} {throttlingRate : UInt64} {buffer : Str} {k : Nat} {sent : Sent}

/-- One round in front. -/
theorem From.round (h : From sys throttlingRate buffer (k + 1) sent) (hmore : left sys buffer.length (k + 1) ≠ 0) :
    From sys throttlingRate buffer k { sent with
      blocks := blockAt sys buffer.length k :: sent.blocks
      pauses := wait (sys.before k + period throttlingRate) (sys.after k) :: sent.pauses } where
  ret := h.ret
  handed := by
    have hle := left_le sys buffer.length k
    have htaken := sys.le k (min (left sys buffer.length k) 1024)
    have hoffset : buffer.length - (left sys buffer.length k - sys.rawSend k (min (left sys buffer.length k) 1024)) =
        buffer.length - left sys buffer.length k + sys.rawSend k (min (left sys buffer.length k) 1024) := by
      omega
    rw [handed_cons, h.handed, left, hoffset, ← List.drop_drop, blockAt, List.take_append_drop]
  inside := List.forall_mem_cons.mpr ⟨blockAt_inside sys buffer.length k, h.inside⟩
  pauses := by
    intro j
    cases j with
    | zero => exact .inl ⟨Nat.zero_lt_succ _, rfl⟩
    | succ j =>
      rcases h.pauses j with ⟨hlt, hpause⟩ | hle
      · refine .inl ⟨Nat.succ_lt_succ hlt, ?_⟩
        rw [show k + (j + 1) = k + 1 + j by omega, ← hpause]
        rfl
      · exact .inr (Nat.succ_le_succ hle)
  many := by
    intro j
    cases j with
    | zero => exact iff_of_true (Nat.zero_lt_succ _) hmore
    | succ j =>
      rw [show k + (j + 1) + 1 = k + 1 + j + 1 by omega, ← h.many j]
      exact Nat.succ_lt_succ_iff

/-- The last round. -/
theorem from_last (hlast : left sys buffer.length (k + 1) = 0) : From sys throttlingRate buffer k
    ⟨buffer.length - left sys buffer.length (k + 1), [blockAt sys buffer.length k], []⟩ where
  ret := by
    rw [hlast]
    exact Nat.sub_zero _
  handed := by
    have hle := left_le sys buffer.length k
    have htaken := sys.le k (min (left sys buffer.length k) 1024)
    have hall : sys.rawSend k (min (left sys buffer.length k) 1024) = left sys buffer.length k := by
      rw [left] at hlast
      omega
    simp [Sent.handed, blockAt, hall, List.length_drop]
    omega
  inside := List.forall_mem_singleton.mpr (blockAt_inside sys buffer.length k)
  pauses := fun j => .inr (Nat.zero_le _)
  many := by
    intro j
    have hzero := left_antitone sys buffer.length (show k + 1 ≤ k + j + 1 by omega)
    rw [hlast] at hzero
    exact iff_of_false (Nat.not_lt_zero _) (not_not.mpr (Nat.le_zero.mp hzero))

end

theorem sendLoop_from (sys : System) (throttlingRate : UInt64) (buffer : Str) {fuel k : Nat}
    (h : left sys buffer.length k < fuel) :
    ∃ sent, sendLoop sys throttlingRate buffer.length fuel k (left sys buffer.length k) = some sent ∧
      From sys throttlingRate buffer k sent := by
  induction fuel generalizing k with
  | zero => omega
  | succ fuel ih =>
    rw [sendLoop_succ]
    by_cases hmore : left sys buffer.length (k + 1) ≠ 0
    · have hpos : 0 < left sys buffer.length k :=
        (Nat.pos_of_ne_zero hmore).trans_le (left_antitone sys buffer.length (Nat.le_succ k))
      obtain ⟨sent, hsent, hfrom⟩ := ih ((left_succ_lt hpos).trans_le (Nat.lt_succ_iff.mp h))
      rw [if_pos hmore, hsent]
      exact ⟨_, rfl, hfrom.round hmore⟩
    · rw [if_neg hmore]
      exact ⟨_, rfl, from_last (not_not.mp hmore)⟩

/-! ## The waits -/

theorem period_le (throttlingRate : UInt64) : (period throttlingRate).toNat ≤ 1024000 := by
  unfold period
  rw [UInt64.toNat_div]
  exact Nat.div_le_self _ _

/-- The difference is taken the wrong way round. -/
theorem wait_le_iff {throttlingRate before after : UInt64} (h : before ≤ after) :
    (wait (before + period throttlingRate) after).usec.toNat ≤ timeLeft throttlingRate before after ↔
      OnTime throttlingRate before after := by
  have hperiod := period_le throttlingRate
  have hle : before.toNat ≤ after.toNat := UInt64.le_iff_toNat_le.mp h
  have hlt := after.toNat_lt
  unfold wait timeLeft OnTime
  dsimp only
  rw [UInt64.toNat_toUInt32, UInt64.toNat_sub, UInt64.toNat_add]
  constructor
  · intro hwait
    refine ⟨(after.toNat - before.toNat - (period throttlingRate).toNat) / 2 ^ 32, ?_⟩
    omega
  · rintro ⟨n, hn⟩
    omega

theorem send_from (sys : System) (throttlingRate : UInt64) (buffer : Str) (hrate : throttlingRate ≠ 0) :
    ∃ sent, send sys throttlingRate buffer.length = some sent ∧ From sys throttlingRate buffer 0 sent := by
  obtain ⟨sent, hsent, hfrom⟩ := sendLoop_from sys throttlingRate buffer (k := 0) (Nat.lt_succ_self _)
  refine ⟨sent, ?_, hfrom⟩
  rw [send, if_neg hrate]
  exact hsent

theorem From.usec {sys : System} {throttlingRate : UInt64} {buffer : Str} {sent : Sent}
    (h : From sys throttlingRate buffer 0 sent) {k : Nat} (hk : k < sent.pauses.length) :
    (sent.pauses.get ⟨k, hk⟩).usec.toNat ≤ timeLeft throttlingRate (sys.before k) (sys.after k) ↔
      OnTime throttlingRate (sys.before k) (sys.after k) := by
  obtain ⟨_, hpause⟩ := (h.pauses k).resolve_right (not_le.mpr hk)
  rw [hpause, Nat.zero_add]
  exact wait_le_iff (sys.during k)

theorem From.right_iff {sys : System} {throttlingRate : UInt64} {buffer : Str} {sent : Sent}
    (h : From sys throttlingRate buffer 0 sent) : sent.Right sys throttlingRate buffer ↔
      ∀ k, left sys buffer.length (k + 1) ≠ 0 → OnTime throttlingRate (sys.before k) (sys.after k) := by
  constructor
  · intro hright k hk
    have hlt := (h.many k).mpr (by rwa [Nat.zero_add])
    exact (h.usec hlt).mp (hright.waits k hlt)
  · intro htime
    refine ⟨h.ret, ?_, h.inside, ?_⟩
    · rw [h.handed, left, Nat.sub_self, List.drop_zero]
    · intro k hlt
      have hk := (h.many k).mp hlt
      rw [Nat.zero_add] at hk
      exact (h.usec hlt).mpr (htime k hk)

/-- **When a throttled call sends all and never waits too long**: the clock is on time behind every block but
the last. -/
theorem send_right_iff (sys : System) (throttlingRate : UInt64) (buffer : Str) (hrate : throttlingRate ≠ 0) :
    (∃ sent, send sys throttlingRate buffer.length = some sent ∧ sent.Right sys throttlingRate buffer) ↔
      ∀ k, left sys buffer.length (k + 1) ≠ 0 → OnTime throttlingRate (sys.before k) (sys.after k) := by
  obtain ⟨sent, hsent, hfrom⟩ := send_from sys throttlingRate buffer hrate
  rw [hsent]
  simpa using hfrom.right_iff

/-! ## Two blocks -/

/-- All is taken, in so many ticks, and none is spent on the second block. -/
def ticking (ticks : UInt64) : System where
  rawSend _ n := n
  before k := if k = 0 then 0 else ticks
  after _ := ticks
  le _ _ := le_rfl
  pos _ _ h := h
  during k := by
    split_ifs
    · exact UInt64.zero_le
    · exact UInt64.le_refl _
  between k := by
    rw [if_neg (Nat.succ_ne_zero k)]
    exact UInt64.le_refl _

theorem left_ticking (ticks : UInt64) : left (ticking ticks) 2000 1 = 976 ∧ left (ticking ticks) 2000 2 = 0 := by
  simp [left, ticking]

/-- A block that takes the whole period. -/
theorem send_right_ticking : ∃ sent, send (ticking 1000) 1024 (List.replicate 2000 (ch 'a')).length = some sent ∧
    sent.Right (ticking 1000) 1024 (List.replicate 2000 (ch 'a')) := by
  apply (send_right_iff (ticking 1000) 1024 (List.replicate 2000 (ch 'a')) (by decide)).mpr
  intro k hk
  rw [List.length_replicate] at hk
  cases k with
  | zero => exact ⟨0, rfl⟩
  | succ k =>
    have hle := left_antitone (ticking 1000) 2000 (show 2 ≤ k + 1 + 1 by omega)
    rw [(left_ticking 1000).2] at hle
    exact absurd (Nat.le_zero.mp hle) hk

/-- A block that takes no time is followed by a wait of more than an hour. -/
theorem not_send_right : ¬ ∀ (sys : System) (throttlingRate : UInt64) (buffer : Str), throttlingRate ≠ 0 →
    ∃ sent, send sys throttlingRate buffer.length = some sent ∧ sent.Right sys throttlingRate buffer := by
  intro h
  obtain ⟨sent, hsent, hright⟩ := h (ticking 0) 1024 (List.replicate 2000 (ch 'a')) (by decide)
  obtain ⟨sent', hsent', hfrom⟩ := send_from (ticking 0) 1024 (List.replicate 2000 (ch 'a'))
    (by decide)
  obtain rfl := Option.some.inj (hsent'.symm.trans hsent)
  obtain ⟨n, hn⟩ := hfrom.right_iff.mp hright 0 (by
    rw [List.length_replicate, (left_ticking 0).1]
    decide)
  have hlate : (0 : UInt64).toNat = (0 : UInt64).toNat + 1000 + n * 2 ^ 32 := hn
  rw [UInt64.toNat_zero] at hlate
  omega

end MyServer.Throttling
