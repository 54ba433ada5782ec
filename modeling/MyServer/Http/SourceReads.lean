import MyServer.Http.DataRead

/-!
# What one read takes from a source

Every read takes a prefix of what is unread, and it is short only where a socket
fragment ends inside it.
-/

namespace MyServer

namespace Conn

/-- The socket has a fragment that ends `k` unread bytes from here. -/
def CutAt (c : Conn) (k : Nat) : Prop :=
  ∃ j, Fragments.CutAt c.socket j ∧ k = c.buffered.length + j

/-- The outcome `bs` and `c'` of a read of `n` bytes from a source that has them. -/
structure Reads (c : Conn) (n : Nat) (bs : Str) (c' : Conn) : Prop where
  unread : c.unread = bs ++ c'.unread
  length_le : bs.length ≤ n
  ne_nil : 0 < n → bs ≠ []
  proper : Fragments.Proper c'.socket
  cuts : ∀ k, 0 < k → (c'.CutAt k ↔ c.CutAt (bs.length + k))
  full : (∀ j, 0 < j → j < n → ¬ c.CutAt j) → bs.length = n
  short : ∀ j, c.CutAt j → bs.length ≤ j

end Conn

theorem read_of_buffered {c : Conn} {n : Nat} (hproper : Fragments.Proper c.socket)
    (hn : n ≤ c.buffered.length) :
    ∃ bs c', readContiguousPrimitivePostData c n = ⟨bs, false, c'⟩ ∧ c.Reads n bs c' := by
  have hlen : (c.buffered.take n).length = n := List.length_take_of_le hn
  refine ⟨c.buffered.take n, { c with buffered := c.buffered.drop n }, ?_, ?_⟩
  · unfold readContiguousPrimitivePostData
    exact if_pos hlen
  · refine ⟨?_, hlen.le, fun h0 hnil => ?_, hproper, fun k _ => ?_, fun _ => hlen, fun j hj => ?_⟩
    · unfold Conn.unread
      dsimp only
      rw [← List.append_assoc, List.take_append_drop]
    · rw [hnil, List.length_nil] at hlen
      omega
    · unfold Conn.CutAt
      dsimp only
      rw [hlen, List.length_drop]
      constructor <;>
      · rintro ⟨j, hj, hk⟩
        exact ⟨j, hj, by omega⟩
    · obtain ⟨i, -, rfl⟩ := hj
      omega

theorem read_of_socket {c : Conn} {n : Nat} (hproper : Fragments.Proper c.socket)
    (hn : c.buffered.length < n) (hlen : n ≤ c.unread.length) :
    ∃ bs c', readContiguousPrimitivePostData c n = ⟨bs, false, c'⟩ ∧ c.Reads n bs c' := by
  have hbuffered : c.buffered.take n = c.buffered := List.take_of_length_le hn.le
  have hflat : n - c.buffered.length ≤ c.socket.flatten.length := by
    unfold Conn.unread at hlen
    rw [List.length_append] at hlen
    omega
  have hne : c.socket.flatten ≠ [] := by
    intro hnil
    rw [hnil, List.length_nil] at hflat
    omega
  set m := n - c.buffered.length with hm
  have hmore := Fragments.take_flatten m c.socket
  have hmore_le := Fragments.take_length_le m c.socket
  refine ⟨c.buffered ++ (Fragments.take m c.socket).1,
    { c with buffered := [], socket := (Fragments.take m c.socket).2 }, ?_, ?_⟩
  · have hrecv : ¬ (c.socket = [] ∧ c.broken = true) := by
      rintro ⟨hnil, -⟩
      rw [hnil] at hne
      exact hne rfl
    unfold readContiguousPrimitivePostData
    dsimp only
    rw [hbuffered, if_neg (by omega), List.drop_of_length_le hn.le, Conn.recv, if_neg hrecv]
  · refine ⟨?_, ?_, fun _ => ?_, hproper.take m, fun k hk => ?_, fun hcut => ?_, fun j hj => ?_⟩
    · unfold Conn.unread
      dsimp only
      rw [List.nil_append, List.append_assoc, hmore]
    · rw [List.length_append]
      omega
    · intro hnil
      exact Fragments.take_ne_nil hproper (by omega) hne (List.append_eq_nil_iff.mp hnil).2
    · unfold Conn.CutAt
      dsimp only
      rw [List.length_append, List.length_nil]
      constructor
      · rintro ⟨j, hj, rfl⟩
        exact ⟨_, (Fragments.cutAt_take m (by omega)).mp hj, by omega⟩
      · rintro ⟨j, hj, hk'⟩
        obtain rfl : j = (Fragments.take m c.socket).1.length + k := by omega
        exact ⟨k, (Fragments.cutAt_take m hk).mpr hj, by omega⟩
    · rw [List.length_append, Fragments.take_length_of_no_cut hproper _ hflat]
      · omega
      · intro j hj hjm hcutj
        exact hcut (c.buffered.length + j) (by omega) (by omega) ⟨j, hcutj, rfl⟩
    · obtain ⟨i, hi, rfl⟩ := hj
      have := Fragments.take_length_le_of_cut (n := m) hi
      rw [List.length_append]
      omega

/-- **One read** from a source that has what it asks for. -/
theorem read_reads {c : Conn} {n : Nat} (hproper : Fragments.Proper c.socket)
    (hn : n ≤ c.unread.length) :
    ∃ bs c', readContiguousPrimitivePostData c n = ⟨bs, false, c'⟩ ∧ c.Reads n bs c' := by
  rcases Nat.lt_or_ge c.buffered.length n with h | h
  · exact read_of_socket hproper h hn
  · exact read_of_buffered hproper h

theorem read_one {c : Conn} (hproper : Fragments.Proper c.socket) {b : Byte} {u : Str}
    (hunread : c.unread = b :: u) :
    ∃ c', readContiguousPrimitivePostData c 1 = ⟨[b], false, c'⟩ ∧ c'.unread = u ∧
      Fragments.Proper c'.socket ∧ ∀ k, 0 < k → (c'.CutAt k ↔ c.CutAt (1 + k)) := by
  obtain ⟨bs, c', hread, h⟩ := read_reads (n := 1) hproper (by simp [hunread])
  have hlen := h.full fun j _ _ => by omega
  have hu := h.unread
  obtain ⟨a, rfl⟩ := List.length_eq_one_iff.mp hlen
  rw [hunread, List.singleton_append, List.cons.injEq] at hu
  obtain ⟨rfl, rfl⟩ := hu
  exact ⟨c', hread, rfl, h.proper, h.cuts⟩

/-! ## Any read -/

theorem read_unread (c : Conn) (n : Nat) :
    (readContiguousPrimitivePostData c n).bytes ++ (readContiguousPrimitivePostData c n).conn.unread =
      c.unread := by
  unfold readContiguousPrimitivePostData Conn.recv Conn.unread
  dsimp only
  split_ifs with hfull hfailed
  · rw [← List.append_assoc, List.take_append_drop]
  · rw [← List.append_assoc, List.take_append_drop]
  · dsimp only
    have hdrop : c.buffered.drop n = [] := by
      rw [List.drop_eq_nil_iff]
      rw [List.length_take] at hfull
      omega
    rw [hdrop, List.nil_append, List.append_assoc, Fragments.take_flatten, List.take_of_length_le]
    rwa [List.drop_eq_nil_iff] at hdrop

theorem read_length (c : Conn) (n : Nat) : (readContiguousPrimitivePostData c n).bytes.length +
    (readContiguousPrimitivePostData c n).conn.unread.length = c.unread.length := by
  rw [← List.length_append, read_unread]

namespace Conn

/-- What `c` has become when `n` of its bytes were read. -/
structure After (c : Conn) (n : Nat) (c' : Conn) : Prop where
  unread : c'.unread = c.unread.drop n
  length_le : n ≤ c.unread.length
  cuts : ∀ k, 0 < k → (c'.CutAt k ↔ c.CutAt (n + k))
  broken : c'.broken = c.broken
  socket : c'.unread ≠ [] → (c'.socket = [] ↔ c.socket = [])
  proper : Fragments.Proper c'.socket

namespace After

variable {c c' c'' : Conn} {n m : Nat}

theorem refl (hproper : Fragments.Proper c.socket) : c.After 0 c where
  unread := rfl
  length_le := Nat.zero_le _
  cuts k _ := by rw [Nat.zero_add]
  broken := rfl
  socket _ := Iff.rfl
  proper := hproper

theorem length (h : c.After n c') : c'.unread.length = c.unread.length - n := by
  rw [h.unread, List.length_drop]

theorem trans (h : c.After n c') (h' : c'.After m c'') : c.After (n + m) c'' where
  unread := by rw [h'.unread, h.unread, List.drop_drop]
  length_le := by
    have := h.length_le
    have := h'.length_le
    have := h.length
    omega
  cuts k hk := by rw [h'.cuts k hk, h.cuts _ (by omega), Nat.add_assoc]
  broken := h'.broken.trans h.broken
  socket hne := by
    have hne' : c'.unread ≠ [] := by
      intro hnil
      rw [h'.unread, hnil, List.drop_nil] at hne
      exact hne rfl
    rw [h'.socket hne, h.socket hne']
  proper := h'.proper

end After

end Conn

/-- **One read** of a source, whether or not it has what is asked for. -/
theorem read_after {c : Conn} (hproper : Fragments.Proper c.socket) (n : Nat) :
    c.After (readContiguousPrimitivePostData c n).bytes.length (readContiguousPrimitivePostData c n).conn ∧
      (readContiguousPrimitivePostData c n).bytes.length ≤ n ∧
      (0 < n → c.unread ≠ [] → (readContiguousPrimitivePostData c n).bytes ≠ []) ∧
      ((readContiguousPrimitivePostData c n).failed = true ↔
        c.broken = true ∧ c.socket = [] ∧ c.buffered.length < n) := by
  have hlength := read_length c n
  have hunread := read_unread c n
  have hdrop : (readContiguousPrimitivePostData c n).conn.unread =
      c.unread.drop (readContiguousPrimitivePostData c n).bytes.length := by
    rw [← hunread, List.drop_left]
  rcases Nat.lt_or_ge c.buffered.length n with hshort | hfull
  · have htake : c.buffered.take n = c.buffered := List.take_of_length_le hshort.le
    have hnil : c.buffered.drop n = [] := List.drop_of_length_le hshort.le
    by_cases hend : c.socket = [] ∧ c.broken = true
    · have hread : readContiguousPrimitivePostData c n =
          ⟨c.buffered, true, { c with buffered := [] }⟩ := by
        unfold readContiguousPrimitivePostData
        dsimp only
        rw [htake, hnil, if_neg (by omega), Conn.recv, if_pos hend]
      rw [hread] at hlength hdrop ⊢
      refine ⟨⟨hdrop, by omega, ?_, rfl, ?_, hproper⟩, hshort.le, ?_, ?_⟩
      · intro k _
        unfold Conn.CutAt
        dsimp only
        constructor <;>
        · rintro ⟨j, hj, hk⟩
          exact ⟨j, hj, by simpa using hk⟩
      · exact fun _ => Iff.rfl
      · intro _ hne hnil
        dsimp only at hnil
        rw [Conn.unread, hend.1, hnil] at hne
        exact hne rfl
      · exact iff_of_true rfl ⟨hend.2, hend.1, hshort⟩
    · have hread : readContiguousPrimitivePostData c n =
          ⟨c.buffered ++ (Fragments.take (n - c.buffered.length) c.socket).1, false,
            { c with buffered := [], socket := (Fragments.take (n - c.buffered.length) c.socket).2 }⟩ := by
        unfold readContiguousPrimitivePostData
        dsimp only
        rw [htake, hnil, if_neg (by omega), Conn.recv, if_neg hend]
      rw [hread] at hlength hdrop ⊢
      have hmore := Fragments.take_length_le (n - c.buffered.length) c.socket
      refine ⟨⟨hdrop, by omega, ?_, rfl, ?_, hproper.take _⟩, ?_, ?_, ?_⟩
      · intro k hk
        unfold Conn.CutAt
        dsimp only
        rw [List.length_append, List.length_nil]
        constructor
        · rintro ⟨j, hj, rfl⟩
          exact ⟨_, (Fragments.cutAt_take _ (by omega)).mp hj, by omega⟩
        · rintro ⟨j, hj, hk'⟩
          obtain rfl : j = (Fragments.take (n - c.buffered.length) c.socket).1.length + k := by omega
          exact ⟨k, (Fragments.cutAt_take _ hk).mpr hj, by omega⟩
      · -- The socket was read, so what is left comes from it.
        intro hne
        refine iff_of_false ?_ ?_
        · intro hnil
          dsimp only at hnil
          rw [Conn.unread, hnil] at hne
          exact hne rfl
        · intro hnil
          rw [Conn.unread, hnil] at hne
          exact hne rfl
      · rw [List.length_append]
        omega
      · intro hn hne hnil
        obtain ⟨hbuffered, hsocket⟩ := List.append_eq_nil_iff.mp hnil
        refine Fragments.take_ne_nil hproper (by omega) ?_ hsocket
        rwa [Conn.unread, hbuffered, List.nil_append] at hne
      · refine iff_of_false Bool.false_ne_true ?_
        rintro ⟨hbroken, hsocket, -⟩
        exact hend ⟨hsocket, hbroken⟩
  · have hread : readContiguousPrimitivePostData c n =
        ⟨c.buffered.take n, false, { c with buffered := c.buffered.drop n }⟩ := by
      unfold readContiguousPrimitivePostData
      exact if_pos (List.length_take_of_le hfull)
    rw [hread] at hlength hdrop ⊢
    have htake : (c.buffered.take n).length = n := List.length_take_of_le hfull
    refine ⟨⟨hdrop, by omega, ?_, rfl, fun _ => Iff.rfl, hproper⟩, htake.le, ?_, ?_⟩
    · intro k _
      unfold Conn.CutAt
      dsimp only
      rw [htake, List.length_drop]
      constructor <;>
      · rintro ⟨j, hj, hk⟩
        exact ⟨j, hj, by omega⟩
    · intro hn _ hnil
      dsimp only at hnil
      rw [hnil, List.length_nil] at htake
      omega
    · refine iff_of_false Bool.false_ne_true ?_
      rintro ⟨-, -, hlt⟩
      omega

end MyServer
