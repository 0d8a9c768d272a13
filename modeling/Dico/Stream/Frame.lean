import Dico.Stream.Model
/-!
# What the transport leaves alone

Reading from and writing to the transport touch a stream's counters,
flags and last error, and nothing of its block and window:
`readUnbuffered_frame` and `writeUnbuffered_frame` say so once. A
transport that never reports more bytes than it was given room for is
`Honest`, and over one neither call faults.
-/

namespace Dico

open Memory

/-- The transport never reports more bytes written than it was offered. -/
def Transport.WritesWithin {σ : Type} (T : Transport σ) : Prop :=
  ∀ wr ∈ T.write, ∀ x buf n x', wr x buf = (.ok n, x') → n ≤ buf.length

/-- The transport never reports more bytes than it was asked for, or
offered. -/
structure Transport.Honest {σ : Type} (T : Transport σ) : Prop where
  read_le : ∀ rd ∈ T.read, ∀ x n data x', rd x n = (.ok data, x') → data.length ≤ n
  stored_le : ∀ rd ∈ T.read, ∀ x n rc data x',
    rd x n = (.fail rc (some data), x') → data.length ≤ n
  write_le : T.WritesWithin

/-- A read the transport fails reports no bytes. -/
def Transport.QuietFailure {σ : Type} (T : Transport σ) : Prop :=
  ∀ rd ∈ T.read, ∀ x n rc data x', rd x n = (.fail rc (some data), x') → data = []

namespace DicoStream

variable {σ : Type} {T : Transport σ} {st st' st'' : DicoStream} {x x' : σ} {rc : ℕ}

/-- Two states of a stream with the same block, window and modes. -/
structure SameBuffer (st st' : DicoStream) : Prop where
  buftype : st'.buftype = st.buftype
  buffer : st'.buffer = st.buffer
  level : st'.level = st.level
  cur : st'.cur = st.cur
  dirty : st'.dirty = st.dirty
  canRead : st'.canRead = st.canRead
  canWrite : st'.canWrite = st.canWrite
  canSeek : st'.canSeek = st.canSeek

theorem SameBuffer.refl (st : DicoStream) : SameBuffer st st :=
  ⟨rfl, rfl, rfl, rfl, rfl, rfl, rfl, rfl⟩

theorem SameBuffer.bufsize (h : SameBuffer st st') : st'.bufsize = st.bufsize :=
  congrArg List.length h.buffer

/-- Recording an error changes nothing of the buffer. -/
theorem sameBuffer_seterror (st : DicoStream) (code : ℕ) (perm : Bool) :
    SameBuffer st (st.seterror code perm) :=
  ⟨rfl, rfl, rfl, rfl, rfl, rfl, rfl, rfl⟩

/-! ## The write loop -/

/-- The write loop does not fault where no call takes more than it is
offered. -/
theorem writeLoop_ok {wr : σ → Bytes → WriteReply × σ}
    (hwr : ∀ x buf n x', wr x buf = (.ok n, x') → n ≤ buf.length) (fuel : ℕ) (buf : Bytes)
    (out : ℕ) (x : σ) : ∃ r, writeLoop wr fuel buf out x = .ok r := by
  induction fuel generalizing buf out x with
  | zero => exact ⟨_, rfl⟩
  | succ fuel ih =>
    rw [writeLoop]
    by_cases hlen : buf.length = 0
    · exact ⟨_, if_pos hlen⟩
    rw [if_neg hlen]
    rcases hr : wr x buf with ⟨n | rc, x'⟩
    · have hle := hwr x buf n x' hr
      by_cases hn : n = 0
      · exact ⟨_, if_pos hn⟩
      simp only [if_neg hn, if_neg (Nat.not_lt.2 hle)]
      exact ih _ _ _
    · exact ⟨_, rfl⟩

/-- Writing to the transport leaves the buffer alone. -/
theorem writeUnbuffered_frame {buf : Bytes}
    (h : writeUnbuffered T st x buf = .ok (rc, st', x')) : SameBuffer st st' := by
  unfold writeUnbuffered at h
  split at h
  · cases h
    exact sameBuffer_seterror _ _ _
  split_ifs at h
  · cases h
    exact sameBuffer_seterror _ _ _
  · cases h
    exact SameBuffer.refl _
  · cases h
    exact SameBuffer.refl _
  · obtain ⟨⟨rc', out, y⟩, -, h⟩ := bind_eq_ok.1 h
    cases h
    exact ⟨rfl, rfl, rfl, rfl, rfl, rfl, rfl, rfl⟩

/-- Over a transport that takes no more than it is offered writing does
not fault. -/
theorem writeUnbuffered_ok (hT : T.WritesWithin) (st : DicoStream) (x : σ) (buf : Bytes) :
    ∃ rc st' x', writeUnbuffered T st x buf = .ok (rc, st', x') := by
  unfold writeUnbuffered
  split
  · exact ⟨_, _, _, rfl⟩
  rename_i wr hwr
  split_ifs
  · exact ⟨_, _, _, rfl⟩
  · exact ⟨_, _, _, rfl⟩
  · exact ⟨_, _, _, rfl⟩
  · obtain ⟨⟨rc, out, x'⟩, hr⟩ := writeLoop_ok (hT wr hwr) buf.length buf 0 x
    rw [hr]
    exact ⟨_, _, _, rfl⟩

/-- A stream in order writes what its loop writes. -/
theorem writeUnbuffered_of_loop {wr : σ → Bytes → WriteReply × σ} {buf : Bytes} {n : ℕ}
    (hwr : T.write = some wr) (hcan : st.canWrite = true) (herr : st.err = false) (hne : buf ≠ [])
    (hloop : writeLoop wr buf.length buf 0 x = .ok (0, n, x')) :
    ∃ st', writeUnbuffered T st x buf = .ok (0, st', x') ∧ SameBuffer st st' ∧
      st'.err = false := by
  have hlen : ¬ buf.length = 0 := fun h => hne (List.length_eq_zero_iff.1 h)
  refine ⟨seterror { st with bytesOut := st.bytesOut + n } 0 false, ?_,
    ⟨rfl, rfl, rfl, rfl, rfl, rfl, rfl, rfl⟩, Bool.or_eq_false_iff.2 ⟨herr, rfl⟩⟩
  simp only [writeUnbuffered, hwr, hcan, herr, Bool.not_true, Bool.false_eq_true, if_false,
    if_neg hlen, hloop, ok_bind, bne_self_eq_false]

/-- A call that takes everything it is offered ends the loop. -/
theorem writeLoop_whole {wr : σ → Bytes → WriteReply × σ} {buf : Bytes}
    (hw : wr x buf = (.ok buf.length, x')) (hne : buf ≠ []) (out : ℕ) :
    writeLoop wr buf.length buf out x = .ok (0, out + buf.length, x') := by
  have hlen : ¬ buf.length = 0 := fun h => hne (List.length_eq_zero_iff.1 h)
  have hdone : ∀ fuel n, writeLoop wr fuel [] n x' = .ok (0, n, x') := by
    intro fuel n
    cases fuel with
    | zero => rfl
    | succ fuel => rfl
  obtain ⟨k, hk⟩ : ∃ k, buf.length = k + 1 := Nat.exists_eq_succ_of_ne_zero hlen
  conv_lhs => rw [hk, writeLoop, if_neg hlen, hw]
  simp only [if_neg hlen, Nat.lt_irrefl, if_false, List.drop_length, hdone]

/-! ## The read loop -/

/-- Over an honest transport the read loop does not fault. -/
theorem readLoop_ok {rd : σ → ℕ → ReadReply × σ}
    (hrd : ∀ x n data x', rd x n = (.ok data, x') → data.length ≤ n) (fuel size : ℕ)
    (acc : Bytes) (x : σ) : ∃ r, readLoop rd fuel size acc x = .ok r := by
  induction fuel generalizing size acc x with
  | zero => exact ⟨_, rfl⟩
  | succ fuel ih =>
    rw [readLoop]
    by_cases hsize : size = 0
    · exact ⟨_, if_pos hsize⟩
    rw [if_neg hsize]
    rcases hr : rd x size with ⟨data | ⟨rc, stored⟩, x'⟩
    · have hle := hrd x size data x' hr
      simp only [if_neg (Nat.not_lt.2 hle)]
      by_cases hdata : data.length = 0
      · exact ⟨_, if_pos hdata⟩
      rw [if_neg hdata]
      exact ih _ _ _
    · exact ⟨_, rfl⟩

/-- The read loop stores no more bytes than it was asked for. -/
theorem length_of_readLoop {rd : σ → ℕ → ReadReply × σ} {fuel size : ℕ} {acc data : Bytes}
    {eof : Bool} (h : readLoop rd fuel size acc x = .ok (rc, data, eof, x')) :
    data.length ≤ acc.length + size := by
  induction fuel generalizing size acc x with
  | zero =>
    cases h
    exact Nat.le_add_right _ _
  | succ fuel ih =>
    rw [readLoop] at h
    by_cases hsize : size = 0
    · rw [if_pos hsize] at h
      cases h
      exact Nat.le_add_right _ _
    rw [if_neg hsize] at h
    rcases hr : rd x size with ⟨got | ⟨rc', stored⟩, y⟩
    · rw [hr] at h
      by_cases hlt : size < got.length
      · simp only [if_pos hlt, reduceCtorEq] at h
      simp only [if_neg hlt] at h
      by_cases hgot : got.length = 0
      · rw [if_pos hgot] at h
        cases h
        exact Nat.le_add_right _ _
      · rw [if_neg hgot] at h
        have := ih h
        rw [List.length_append] at this
        omega
    · rw [hr] at h
      cases h
      exact Nat.le_add_right _ _

/-- What a read from the transport can have done: it left the buffer
alone, stored no more than it was asked for, and reported the count of
what it stored or nothing. -/
theorem readUnbuffered_frame {size : ℕ} {pread : Bool} {r : ReadResult σ}
    (h : readUnbuffered T st x size pread = .ok r) :
    SameBuffer st r.st ∧ r.data.length ≤ size ∧
      (r.pread = none ∨ r.pread = some r.data.length) := by
  unfold readUnbuffered at h
  split at h
  · cases h
    exact ⟨sameBuffer_seterror _ _ _, Nat.zero_le _, Or.inl rfl⟩
  split_ifs at h
  · cases h
    exact ⟨sameBuffer_seterror _ _ _, Nat.zero_le _, Or.inl rfl⟩
  · cases h
    exact ⟨SameBuffer.refl _, Nat.zero_le _, Or.inl rfl⟩
  · cases h
    exact ⟨SameBuffer.refl _, Nat.zero_le _, Or.inr rfl⟩
  · cases h
    exact ⟨sameBuffer_seterror _ _ _, Nat.zero_le _, Or.inl rfl⟩
  · split at h
    · split_ifs at h with hlt
      cases h
      exact ⟨⟨rfl, rfl, rfl, rfl, rfl, rfl, rfl, rfl⟩, Nat.not_lt.1 hlt, Or.inr rfl⟩
    · rename_i stored _ _
      split_ifs at h with hlt
      cases h
      refine ⟨sameBuffer_seterror _ _ _, Nat.not_lt.1 hlt, ?_⟩
      cases stored with
      | none => exact Or.inl rfl
      | some data => exact Or.inr rfl
  · obtain ⟨⟨rc, data, eof, y⟩, hloop, h⟩ := bind_eq_ok.1 h
    have hlen := length_of_readLoop hloop
    rw [List.length_nil, Nat.zero_add] at hlen
    simp only at h
    split_ifs at h
    · cases h
      exact ⟨⟨rfl, rfl, rfl, rfl, rfl, rfl, rfl, rfl⟩, hlen, Or.inl rfl⟩
    · cases h
      exact ⟨⟨rfl, rfl, rfl, rfl, rfl, rfl, rfl, rfl⟩, hlen, Or.inl rfl⟩

/-- A failed read of a transport that fails quietly stores no count, or
zero. -/
theorem readUnbuffered_quiet (hT : T.QuietFailure) {size : ℕ} {r : ReadResult σ}
    (h : readUnbuffered T st x size true = .ok r) (hrc : r.rc ≠ 0) :
    r.pread = none ∨ r.pread = some 0 := by
  unfold readUnbuffered at h
  split at h
  · cases h
    exact Or.inl rfl
  rename_i rd hrd
  simp only [if_true] at h
  split_ifs at h
  · cases h
    exact Or.inl rfl
  · cases h
    exact Or.inl rfl
  · cases h
    exact Or.inr rfl
  · split at h
    · split_ifs at h
      cases h
      exact absurd rfl hrc
    · rename_i rc stored x' hr
      split_ifs at h
      cases h
      cases stored with
      | none => exact Or.inl rfl
      | some data =>
        obtain rfl := hT rd hrd x size rc data x' hr
        exact Or.inr rfl

/-- Over an honest transport reading does not fault. -/
theorem readUnbuffered_ok (hT : T.Honest) (st : DicoStream) (x : σ) (size : ℕ) (pread : Bool) :
    ∃ r, readUnbuffered T st x size pread = .ok r := by
  unfold readUnbuffered
  split
  · exact ⟨_, rfl⟩
  rename_i rd hrd
  split_ifs
  · exact ⟨_, rfl⟩
  · exact ⟨_, rfl⟩
  · exact ⟨_, rfl⟩
  · exact ⟨_, rfl⟩
  · rcases hr : rd x size with ⟨data | ⟨rc, stored⟩, x'⟩
    · have hle := hT.read_le rd hrd x size data x' hr
      exact ⟨_, if_neg (Nat.not_lt.2 hle)⟩
    · have hle : (stored.getD []).length ≤ size := by
        cases stored with
        | none => exact Nat.zero_le _
        | some data => exact hT.stored_le rd hrd x size rc data x' hr
      exact ⟨_, if_neg (Nat.not_lt.2 hle)⟩
  · obtain ⟨⟨rc, data, eof, x'⟩, hr⟩ := readLoop_ok (hT.read_le rd hrd) size size [] x
    rw [hr, ok_bind]
    simp only
    split_ifs
    · exact ⟨_, rfl⟩
    · exact ⟨_, rfl⟩

end DicoStream

end Dico
