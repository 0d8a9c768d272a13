import Dico.Stream.Frame
/-!
# The window stays inside the block

Read-ahead and write-behind share one window `[cur, cur + level)` of one
block. This file follows the window through every operation of a stream
opened without `DICO_STREAM_SEEK`: where it starts inside the block,
reading, reading lines and flushing keep it there and copy nothing
outside. Writing appends to the window and takes the room behind it to
be `bufsize - level`, which counts the bytes before the cursor as free;
`Fits` is what that needs, and `runOps_safe_iff` says that a run keeps
inside the block exactly as long as every write fits.
-/

namespace Dico

open Memory

namespace DicoStream

variable {σ : Type} {L : Limits} {T : Transport σ} {st st' st'' : DicoStream} {x x' : σ}
variable {rc n k : ℕ}

/-- The window is inside the block. -/
def InBounds (st : DicoStream) : Prop := st.cur + st.level ≤ st.bufsize

/-- The bytes of the window. -/
def window (st : DicoStream) : Bytes := (st.buffer.drop st.cur).take st.level

/-- Reading the whole window back from the block. -/
theorem peek_window (h : st.InBounds) : peek st.buffer st.cur st.level = some st.window :=
  peek_eq_some h

theorem length_window (h : st.InBounds) : st.window.length = st.level :=
  length_of_peek (peek_window h)

/-- Two states with the same block size and the same modes. -/
structure SameShape (st st' : DicoStream) : Prop where
  buftype : st'.buftype = st.buftype
  bufsize : st'.bufsize = st.bufsize
  canSeek : st'.canSeek = st.canSeek

theorem SameShape.refl (st : DicoStream) : SameShape st st := ⟨rfl, rfl, rfl⟩

theorem SameShape.trans (h : SameShape st st') (h' : SameShape st' st'') : SameShape st st'' :=
  ⟨h'.buftype.trans h.buftype, h'.bufsize.trans h.bufsize, h'.canSeek.trans h.canSeek⟩

theorem SameBuffer.shape (h : SameBuffer st st') : SameShape st st' :=
  ⟨h.buftype, h.bufsize, h.canSeek⟩

theorem SameBuffer.inBounds (h : SameBuffer st st') (hb : st.InBounds) : st'.InBounds := by
  unfold InBounds at hb ⊢
  rw [h.cur, h.level, h.bufsize]
  exact hb

/-- The second state is the first with `n` bytes of its window consumed. -/
structure Consumed (st st' : DicoStream) (n : ℕ) : Prop where
  buftype : st'.buftype = st.buftype
  buffer : st'.buffer = st.buffer
  canSeek : st'.canSeek = st.canSeek
  dirty : st'.dirty = st.dirty
  cur : st'.cur = st.cur + n
  level : st'.level + n = st.level

theorem SameBuffer.consumed (h : SameBuffer st st') : Consumed st st' 0 :=
  ⟨h.buftype, h.buffer, h.canSeek, h.dirty, h.cur, h.level⟩

theorem Consumed.trans (h : Consumed st st' n) (h' : Consumed st' st'' k) :
    Consumed st st'' (n + k) where
  buftype := h'.buftype.trans h.buftype
  buffer := h'.buffer.trans h.buffer
  canSeek := h'.canSeek.trans h.canSeek
  dirty := h'.dirty.trans h.dirty
  cur := by rw [h'.cur, h.cur, Nat.add_assoc]
  level := by have := h.level; have := h'.level; omega

theorem Consumed.shape (h : Consumed st st' n) : SameShape st st' :=
  ⟨h.buftype, congrArg List.length h.buffer, h.canSeek⟩

/-- Consuming moves the start of the window and not its end. -/
theorem Consumed.inBounds (h : Consumed st st' n) (hb : st.InBounds) : st'.InBounds := by
  unfold InBounds at hb ⊢
  have := h.cur; have := h.level; have := h.shape.bufsize
  omega

/-- `_stream_advance_buffer` consumes. -/
theorem consumed_advance (h : n ≤ st.level) : Consumed st (st.advanceBuffer n) n :=
  ⟨rfl, rfl, rfl, rfl, rfl, Nat.sub_add_cancel h⟩

/-! ## Flushing -/

/-- Writing out the window either fails and consumes nothing, or consumes
it all. -/
theorem flushPending_ok (hT : T.WritesWithin) (hb : st.InBounds) (x : σ) :
    ∃ rc st' x' n, flushPending T st x = .ok (rc, st', x') ∧ Consumed st st' n ∧
      (rc = 0 → st'.level = 0) := by
  obtain ⟨rc, st₁, x₁, hw⟩ := writeUnbuffered_ok hT st x st.window
  have hf := writeUnbuffered_frame hw
  rw [flushPending, peek_window hb]
  simp only [hw, ok_bind]
  by_cases hrc : rc = 0
  · refine ⟨0, _, x₁, _, if_neg (not_not.2 hrc),
      hf.consumed.trans (consumed_advance (Nat.le_refl _)), fun _ => ?_⟩
    exact Nat.sub_self _
  · exact ⟨rc, st₁, x₁, 0, if_pos hrc, hf.consumed, fun h => absurd h hrc⟩

/-- Writing out lines only consumes. -/
theorem flushLines_ok (hT : T.WritesWithin) (fuel : ℕ) (hb : st.InBounds) (x : σ) :
    ∃ rc st' x' n, flushLines T fuel st x = .ok (rc, st', x') ∧ Consumed st st' n := by
  induction fuel generalizing st x with
  | zero => exact ⟨0, st, x, 0, rfl, (SameBuffer.refl st).consumed⟩
  | succ fuel ih =>
    rw [flushLines, peek_window hb]
    by_cases hmem : newline ∈ st.window
    · obtain ⟨rc, st₁, x₁, hw⟩ :=
        writeUnbuffered_ok hT st x (st.window.take (st.window.idxOf newline + 1))
      have hf := writeUnbuffered_frame hw
      simp only [if_pos hmem, hw, ok_bind]
      by_cases hrc : rc = 0
      · rw [if_neg (not_not.2 hrc)]
        have hlt : st.window.idxOf newline + 1 ≤ st₁.level := by
          rw [hf.level, ← length_window hb]
          exact List.idxOf_lt_length_of_mem hmem
        have hc := hf.consumed.trans (consumed_advance hlt)
        obtain ⟨rc', st', x', n, hrun, hc'⟩ := ih (hc.inBounds hb) x₁
        exact ⟨rc', st', x', _, hrun, hc.trans hc'⟩
      · exact ⟨rc, st₁, x₁, 0, if_pos hrc, hf.consumed⟩
    · exact ⟨0, st, x, 0, if_neg hmem, (SameBuffer.refl st).consumed⟩

/-- The `switch` of the flush consumes, and a block it succeeds on is not
full afterwards. -/
theorem flushDirty_ok (hT : T.WritesWithin) (all : Bool) (htype : st.buftype ≠ .none)
    (hpos : 0 < st.bufsize) (hb : st.InBounds) (x : σ) :
    ∃ rc st' x' n, flushDirty T all st x = .ok (rc, st', x') ∧ Consumed st st' n ∧
      (rc = 0 → st'.level < st.bufsize) := by
  unfold flushDirty
  split
  · -- the `abort()`, which a stream with a buffer does not come to
    rename_i h
    exact absurd h htype
  · obtain ⟨rc, st₁, x₁, n, hrun, hc, hzero⟩ := flushPending_ok hT hb x
    simp only [hrun, ok_bind]
    refine ⟨_, st₁, x₁, n, rfl, hc, fun h => ?_⟩
    have hrc : rc = 0 := by
      by_contra hne
      rw [if_pos hne] at h
      cases h
    rw [hzero hrc]
    exact hpos
  · by_cases hlevel : st.level = 0
    · rw [if_pos hlevel]
      exact ⟨0, st, x, 0, rfl, (SameBuffer.refl st).consumed, fun _ => by rw [hlevel]; exact hpos⟩
    obtain ⟨rc, st₁, x₁, n, hrun, hc⟩ := flushLines_ok hT st.level hb x
    simp only [if_neg hlevel, hrun, ok_bind]
    by_cases hrc : rc = 0
    · rw [if_neg (not_not.2 hrc)]
      by_cases hpend : ((all && st₁.level != 0) || st₁.bufferFull) = true
      · obtain ⟨rc', st₂, x₂, m, hrun', hc', hzero⟩ := flushPending_ok hT (hc.inBounds hb) x₁
        refine ⟨rc', st₂, x₂, _, ?_, hc.trans hc', fun h => by rw [hzero h]; exact hpos⟩
        rw [if_pos hpend, hrun']
      · -- what is left after the lines ends before the block does
        refine ⟨0, st₁, x₁, n, if_neg hpend, hc, fun _ => ?_⟩
        have hnot : ¬ st₁.cur + st₁.level = st₁.bufsize := by
          intro heq
          simp only [bufferFull, heq, beq_self_eq_true, Bool.or_true, not_true_eq_false] at hpend
        have hb₁ := hc.inBounds hb
        have := hc.shape.bufsize
        unfold InBounds at hb₁
        omega
    · exact ⟨rc, st₁, x₁, n, if_pos hrc, hc, fun h => absurd h hrc⟩

/-- Moving what is left to the front keeps the window's bytes. -/
theorem settle_ok (hb : st.InBounds) :
    ∃ st', settle st = .ok st' ∧ SameShape st st' ∧ st'.cur = 0 ∧ st'.level = st.level ∧
      st'.window = st.window := by
  have hb' : st.cur + st.level ≤ st.bufsize := hb
  unfold settle
  by_cases hlevel : st.level = 0
  · rw [if_neg (not_not.2 hlevel)]
    refine ⟨_, rfl, ⟨rfl, rfl, rfl⟩, rfl, hlevel.symm, ?_⟩
    simp only [window, hlevel, List.take_zero]
  rw [if_pos hlevel]
  by_cases hcur : 0 < st.cur
  · have hlen := length_window hb
    have hfit : 0 + st.window.length ≤ st.buffer.length := by
      rw [hlen, Nat.zero_add]
      exact Nat.le_trans (Nat.le_add_left _ _) hb'
    obtain ⟨m, hpoke⟩ : ∃ m, poke st.buffer 0 st.window = some m := ⟨_, poke_eq_some hfit⟩
    rw [if_pos hcur, peek_window hb]
    simp only [hpoke]
    refine ⟨_, rfl, ⟨rfl, length_of_poke hpoke, rfl⟩, rfl, rfl, ?_⟩
    have hback := peek_poke hpoke
    rw [hlen] at hback
    exact peek_val hback
  · rw [if_neg hcur]
    have h0 : st.cur = 0 := Nat.eq_zero_of_not_pos hcur
    refine ⟨_, rfl, ⟨rfl, rfl, rfl⟩, rfl, rfl, ?_⟩
    simp only [window, h0]

/-- **Flushing keeps the window inside the block**, and a flush that
succeeds leaves it at the front; a dirty block is not full after it. -/
theorem flushBuffer_ok (hT : T.WritesWithin) (hL : 0 < k) (all : Bool) (hseek : st.canSeek = false)
    (htype : st.buftype ≠ .none) (hpos : 0 < st.bufsize) (hb : st.InBounds) (x : σ) :
    ∃ rc st' x', flushBuffer T k all st x = .ok (rc, st', x') ∧ SameShape st st' ∧
      st'.InBounds ∧ (rc = 0 → st'.cur = 0) ∧
      (rc = 0 → st.dirty = true → st'.level < st.bufsize) := by
  obtain ⟨depth, rfl⟩ : ∃ d, k = d + 1 := ⟨k - 1, (Nat.sub_add_cancel hL).symm⟩
  have hwindow : ∀ {s : DicoStream}, SameShape st s → s.cur = 0 → s.level ≤ st.bufsize →
      s.InBounds := by
    intro s hs hc hl
    unfold InBounds
    rw [hc, hs.bufsize, Nat.zero_add]
    exact hl
  rw [flushBuffer]
  cases hdirty : st.dirty with
  | false =>
    obtain ⟨st', hsettle, hshape, hcur, hlevel, -⟩ := settle_ok hb
    simp only [Bool.false_eq_true, if_false, hsettle, ok_bind]
    refine ⟨0, st', x, rfl, hshape, hwindow hshape hcur ?_, fun _ => hcur, fun _ h => by cases h⟩
    rw [hlevel]
    exact Nat.le_trans (Nat.le_add_left _ _) hb
  | true =>
    obtain ⟨rc, st₁, x₁, n, hrun, hc, hfull⟩ := flushDirty_ok hT all htype hpos hb x
    have hb₁ := hc.inBounds hb
    -- without `DICO_STREAM_SEEK` the flush does not call itself again
    simp only [if_true, writeBack, hseek, Bool.false_eq_true, if_false, hrun, ok_bind]
    by_cases hrc : rc = 0
    · obtain ⟨st', hsettle, hshape, hcur, hlevel, -⟩ := settle_ok hb₁
      have hlt : st'.level < st.bufsize := by rw [hlevel]; exact hfull hrc
      simp only [if_neg (not_not.2 hrc), hsettle, ok_bind]
      have hshape' := hc.shape.trans hshape
      exact ⟨0, st', x₁, rfl, hshape', hwindow hshape' hcur (Nat.le_of_lt hlt), fun _ => hcur,
        fun _ _ => hlt⟩
    · rw [if_pos hrc]
      exact ⟨rc, st₁, x₁, rfl, hc.shape, hb₁, fun h => absurd h hrc, fun h => absurd h hrc⟩

/-! ## Filling and reading -/

/-- Filling a line buffer stores at most as many bytes as the block has. -/
theorem fillLine_ok (hT : T.Honest) (fuel : ℕ) (hn : n ≤ st.bufsize) (x : σ) :
    ∃ rc m st' x', fillLine T fuel n st x = .ok (rc, m, st', x') ∧ SameShape st st' ∧
      m ≤ st.bufsize := by
  induction fuel generalizing n st x with
  | zero => exact ⟨0, n, st, x, rfl, SameShape.refl st, hn⟩
  | succ fuel ih =>
    rw [fillLine]
    by_cases hlt : n < st.bufsize
    · rw [if_pos hlt]
      obtain ⟨r, hr⟩ := readUnbuffered_ok hT st x 1 false
      obtain ⟨hf, -, -⟩ := readUnbuffered_frame hr
      rw [hr, ok_bind]
      by_cases hrc : r.rc = 0
      · have hfit : n + [charRead r].length ≤ r.st.buffer.length :=
          Nat.le_trans hlt (Nat.le_of_eq hf.bufsize.symm)
        obtain ⟨m, hm⟩ : ∃ m, poke r.st.buffer n [charRead r] = some m := ⟨_, poke_eq_some hfit⟩
        have hsize : m.length = st.bufsize := (length_of_poke hm).trans hf.bufsize
        have hshape : SameShape st { r.st with buffer := m } := ⟨hf.buftype, hsize, hf.canSeek⟩
        simp only [if_neg (not_not.2 hrc), hm]
        split_ifs
        · exact ⟨0, n + 1, _, r.dev, rfl, hshape, hlt⟩
        · obtain ⟨rc, k, st', x', hrun, hs, hk⟩ :=
            ih (show n + 1 ≤ bufsize { r.st with buffer := m } from
              Nat.le_trans hlt (Nat.le_of_eq hsize.symm)) r.dev
          exact ⟨rc, k, st', x', hrun, hshape.trans hs, hk.trans (Nat.le_of_eq hsize)⟩
      · exact ⟨r.rc, n, r.st, r.dev, if_pos hrc, hf.shape, hn⟩
    · exact ⟨0, n, st, x, if_neg hlt, SameShape.refl st, hn⟩

/-- **Filling an empty buffer keeps the window inside the block.** On a
full buffer a read the transport fails must report no bytes: the level
is already overwritten then, and the cursor is not reset. -/
theorem fillBuffer_ok (hT : T.Honest) (hquiet : st.buftype = .full → T.QuietFailure)
    (hlevel : st.level = 0) (hb : st.InBounds) (x : σ) :
    ∃ rc st' x', fillBuffer T st x = .ok (rc, st', x') ∧ SameShape st st' ∧ st'.InBounds := by
  unfold fillBuffer
  split
  · exact ⟨0, st, x, rfl, SameShape.refl st, hb⟩
  · rename_i htype
    obtain ⟨r, hr⟩ := readUnbuffered_ok hT st x st.bufsize true
    obtain ⟨hf, hlen, hpread⟩ := readUnbuffered_frame hr
    rw [hr, ok_bind]
    have hfit : 0 + r.data.length ≤ r.st.buffer.length := by
      rw [Nat.zero_add]
      exact hlen.trans (Nat.le_of_eq hf.bufsize.symm)
    obtain ⟨m, hm⟩ : ∃ m, poke r.st.buffer 0 r.data = some m := ⟨_, poke_eq_some hfit⟩
    have hsize : m.length = st.bufsize := (length_of_poke hm).trans hf.bufsize
    -- the count may be left unset, and the level is then the zero it was
    have hcount : r.pread.getD r.st.level ≤ st.bufsize := by
      rcases hpread with h | h
      · rw [h, Option.getD_none, hf.level, hlevel]
        exact Nat.zero_le _
      · rw [h, Option.getD_some]
        exact hlen
    rw [hm]
    by_cases hrc : r.rc = 0
    · refine ⟨0, _, r.dev, if_neg (not_not.2 hrc), ⟨hf.buftype, hsize, hf.canSeek⟩, ?_⟩
      simp only [InBounds, bufsize, hsize, Nat.zero_add]
      exact hcount
    · have hzero : r.pread.getD r.st.level = 0 := by
        rcases readUnbuffered_quiet (hquiet htype) hr hrc with h | h
        · rw [h, Option.getD_none, hf.level, hlevel]
        · rw [h, Option.getD_some]
      refine ⟨1, _, r.dev, if_pos hrc, ⟨hf.buftype, hsize, hf.canSeek⟩, ?_⟩
      have hcur : st.cur + st.level ≤ st.bufsize := hb
      simp only [InBounds, bufsize, hsize, hzero, hf.cur]
      unfold bufsize at hcur
      omega
  · obtain ⟨rc, m, st', x', hrun, hshape, hm⟩ :=
      fillLine_ok hT st.bufsize (show 0 ≤ st.bufsize from Nat.zero_le _) x
    rw [hrun, ok_bind]
    refine ⟨rc, _, x', rfl, ⟨hshape.buftype, hshape.bufsize, hshape.canSeek⟩, ?_⟩
    have hsize : st'.buffer.length = st.bufsize := hshape.bufsize
    simp only [InBounds, bufsize, hsize, Nat.zero_add]
    exact hm

/-- So does filling it only where it is empty. -/
theorem refill_ok (hT : T.Honest) (hquiet : st.buftype = .full → T.QuietFailure)
    (hb : st.InBounds) (x : σ) :
    ∃ rc st' x', refill T st x = .ok (rc, st', x') ∧ SameShape st st' ∧ st'.InBounds := by
  unfold refill
  by_cases hlevel : st.level = 0
  · rw [if_pos hlevel]
    exact fillBuffer_ok hT hquiet hlevel hb x
  · exact ⟨0, st, x, if_neg hlevel, SameShape.refl st, hb⟩

/-- Reading keeps the window inside the block. -/
theorem readBuffered_ok (hT : T.Honest) (hquiet : st.buftype = .full → T.QuietFailure)
    (fuel size : ℕ) (acc : Bytes) (hb : st.InBounds) (x : σ) :
    ∃ failed data st' x', readBuffered T fuel size acc st x = .ok (failed, data, st', x') ∧
      SameShape st st' ∧ st'.InBounds := by
  induction fuel generalizing size acc st x with
  | zero => exact ⟨false, acc, st, x, rfl, SameShape.refl st, hb⟩
  | succ fuel ih =>
    rw [readBuffered]
    by_cases hsize : size = 0
    · exact ⟨false, acc, st, x, if_pos hsize, SameShape.refl st, hb⟩
    rw [if_neg hsize]
    obtain ⟨rc, st₁, x₁, hfill, hs₁, hb₁⟩ := refill_ok hT hquiet hb x
    simp only [hfill, ok_bind]
    by_cases hrc : rc = 0
    · rw [if_neg (not_not.2 hrc)]
      by_cases hlevel : st₁.level = 0
      · exact ⟨false, acc, st₁, x₁, if_pos hlevel, hs₁, hb₁⟩
      -- the copy takes no more than the window has
      have hin : st₁.cur + min size st₁.level ≤ st₁.buffer.length :=
        (Nat.add_le_add_left (Nat.min_le_right _ _) _).trans hb₁
      have hc := consumed_advance (Nat.min_le_right size st₁.level)
      rw [if_neg hlevel, peek_eq_some hin]
      simp only
      split_ifs
      · exact ⟨false, _, _, x₁, rfl, hs₁.trans hc.shape, hc.inBounds hb₁⟩
      · have htype : (st₁.advanceBuffer (min size st₁.level)).buftype = .full →
            T.QuietFailure := fun h => hquiet (by rw [← hs₁.buftype, ← hc.buftype, h])
        obtain ⟨failed, data, st', x', hrun, hs, hb'⟩ :=
          ih htype (size - min size st₁.level) _ (hc.inBounds hb₁) x₁
        exact ⟨failed, data, st', x', hrun, (hs₁.trans hc.shape).trans hs, hb'⟩
    · exact ⟨_, acc, st₁, x₁, if_pos hrc, hs₁, hb₁⟩

/-- **`dico_stream_read` keeps the window inside the block.** -/
theorem read_ok (hT : T.Honest) (hquiet : st.buftype = .full → T.QuietFailure)
    (htype : st.buftype ≠ .none) (hb : st.InBounds) (x : σ) (size : ℕ) (pread : Bool) :
    ∃ r, read T st x size pread = .ok r ∧ SameShape st r.st ∧ r.st.InBounds := by
  rw [read, if_neg htype]
  cases st.err with
  | true => exact ⟨_, rfl, SameShape.refl st, hb⟩
  | false =>
    obtain ⟨failed, data, st₁, x₁, hrun, hs, hb₁⟩ := readBuffered_ok hT hquiet size size [] hb x
    simp only [Bool.false_eq_true, if_false, hrun, ok_bind]
    split_ifs
    · exact ⟨_, rfl, hs, hb₁⟩
    · exact ⟨_, rfl, hs, hb₁⟩
    · have hf := sameBuffer_seterror st₁ EIO.val true
      exact ⟨_, rfl, hs.trans hf.shape, hf.inBounds hb₁⟩
    · exact ⟨_, rfl, hs, hb₁⟩

/-- Every round of `dico_stream_getdelim` ends it or leaves room in the
line block for another byte, so its budget is enough. -/
theorem getdelimLoop_ok (hT : T.Honest) (hquiet : st.buftype = .full → T.QuietFailure)
    (delim : UInt8) (fuel size : ℕ) (acc : Bytes) (htype : st.buftype ≠ .none)
    (hb : st.InBounds) (x : σ) (hfuel : max size L.mem + 1 ≤ fuel + acc.length)
    (hacc : acc.length ≤ max size L.mem) :
    ∃ rc line size' st' x', getdelimLoop L T delim fuel size acc st x =
      .ok (rc, line, size', st', x') ∧ SameShape st st' ∧ st'.InBounds := by
  induction fuel generalizing size acc st x with
  | zero => omega
  | succ fuel ih =>
    obtain ⟨r, hr, hs, hb₁⟩ := read_ok hT hquiet htype hb x 1 false
    rw [getdelimLoop, hr, ok_bind]
    by_cases hrc : r.rc = 0
    · simp only [if_neg (not_not.2 hrc)]
      by_cases hover : size ≤ acc.length + 1 ∧ min neededMax (2 * size + 1) ≤ acc.length + 1
      · exact ⟨_, acc, size, r.st, r.dev, if_pos hover, hs, hb₁⟩
      rw [if_neg hover]
      by_cases hmem : size ≤ acc.length + 1 ∧ L.mem < min neededMax (2 * size + 1)
      · exact ⟨_, acc, size, r.st, r.dev, if_pos hmem, hs, hb₁⟩
      rw [if_neg hmem]
      by_cases hdelim : charRead r = delim
      · exact ⟨0, _, _, r.st, r.dev, if_pos hdelim, hs, hb₁⟩
      rw [if_neg hdelim]
      -- the line block has been grown within the memory there is, and has room for the byte
      generalize hsize : (if size ≤ acc.length + 1 then min neededMax (2 * size + 1) else size) =
        size₁
      have hgrow : acc.length + 1 < size₁ ∧ max size₁ L.mem ≤ max size L.mem := by
        split_ifs at hsize with h
        · have := hover
          have := hmem
          simp only [h, true_and, not_le, not_lt] at *
          omega
        · omega
      obtain ⟨rc, line, size', st', x', hrun, hs', hb'⟩ :=
        ih (fun h => hquiet (hs.buftype.symm.trans h)) size₁ (acc ++ [charRead r])
          (fun h => htype (hs.buftype.symm.trans h)) hb₁ r.dev
          (by rw [List.length_append, List.length_singleton]; omega)
          (by rw [List.length_append, List.length_singleton]; omega)
      exact ⟨rc, line, size', st', x', hrun, hs.trans hs', hb'⟩
    · exact ⟨r.rc, acc, size, r.st, r.dev, if_pos hrc, hs, hb₁⟩

/-- **`dico_stream_getline` keeps the window inside the block.** -/
theorem getline_ok (hT : T.Honest) (hquiet : st.buftype = .full → T.QuietFailure)
    (htype : st.buftype ≠ .none) (hb : st.InBounds) (x : σ) (size : ℕ) :
    ∃ rc line size' st' x', getline L T st x size = .ok (rc, line, size', st', x') ∧
      SameShape st st' ∧ st'.InBounds := by
  unfold getline getdelim
  split_ifs
  · exact ⟨_, [], 0, st, x, rfl, SameShape.refl st, hb⟩
  · exact getdelimLoop_ok hT hquiet newline _ 120 [] htype hb x
      (by rw [List.length_nil]; omega) (Nat.zero_le _)
  · exact getdelimLoop_ok hT hquiet newline _ size [] htype hb x
      (by rw [List.length_nil]; omega) (Nat.zero_le _)

/-- **`dico_stream_flush` keeps the window inside the block.** -/
theorem flush_ok (hT : T.WritesWithin) (hseek : st.canSeek = false) (htype : st.buftype ≠ .none)
    (hpos : 0 < st.bufsize) (hb : st.InBounds) (x : σ) :
    ∃ rc st' x', flush L T st x = .ok (rc, st', x') ∧ SameShape st st' ∧ st'.InBounds := by
  obtain ⟨rc, st₁, x₁, hrun, hs, hb₁, -, -⟩ :=
    flushBuffer_ok hT L.stack_pos true hseek htype hpos hb x
  simp only [flush, hrun, ok_bind]
  split_ifs
  · exact ⟨1, st₁, x₁, rfl, hs, hb₁⟩
  · unfold transportFlush
    split
    · exact ⟨0, st₁, x₁, rfl, hs, hb₁⟩
    · exact ⟨_, st₁, _, rfl, hs, hb₁⟩

/-! ## Writing -/

/-- **What a write needs to stay inside the block**: nothing has been
consumed of the window, or the buffer is flushed first, or everything
fits behind the window. A stream in error writes nothing. -/
def Fits (st : DicoStream) (buf : Bytes) : Prop :=
  st.err = true ∨ st.cur = 0 ∨ st.bufferFullP = .ok true ∨
    st.cur + st.level + buf.length ≤ st.bufsize

instance (st : DicoStream) (buf : Bytes) : Decidable (st.Fits buf) :=
  inferInstanceAs (Decidable (_ ∨ _ ∨ _ ∨ _))

/-- A window inside the block can be searched for a newline. -/
theorem bufferFullP_ok (hb : st.InBounds) : ∃ b, st.bufferFullP = .ok b := by
  unfold bufferFullP
  split
  · exact ⟨_, rfl⟩
  · exact ⟨_, rfl⟩
  · split_ifs
    · exact ⟨_, rfl⟩
    · rw [peek_window hb]
      exact ⟨_, rfl⟩

/-- A block filled to the end is full whatever its buffering. -/
theorem bufferFullP_of_full (htype : st.buftype ≠ .none) (h : st.cur + st.level = st.bufsize) :
    st.bufferFullP = .ok true := by
  have hfull : st.bufferFull = true := by rw [bufferFull, h, beq_self_eq_true]
  unfold bufferFullP
  split
  · rename_i hn; exact absurd hn htype
  · rw [hfull]
  · rw [if_pos hfull]

/-- The flush before a copy: it is in vain, or leaves the window at the
front; and after it a dirty block has room. -/
theorem makeRoom_ok (hT : T.WritesWithin) (hseek : st.canSeek = false) (htype : st.buftype ≠ .none)
    (hpos : 0 < st.bufsize) (hb : st.InBounds) (x : σ) :
    ∃ rc st' x', makeRoom L T st x = .ok (rc, st', x') ∧ SameShape st st' ∧ st'.InBounds ∧
      (rc = 0 → st.dirty = true → st'.level < st.bufsize) ∧
      (rc = 0 → st'.cur = 0 ∨ (st.bufferFullP = .ok false ∧ st' = st)) := by
  obtain ⟨b, hfull⟩ := bufferFullP_ok hb
  cases b with
  | true =>
    obtain ⟨rc, st₁, x₁, hrun, hs, hb₁, hcur, hroom⟩ :=
      flushBuffer_ok hT L.stack_pos false hseek htype hpos hb x
    refine ⟨rc, st₁, x₁, ?_, hs, hb₁, hroom, fun h => Or.inl (hcur h)⟩
    rw [makeRoom, hfull, ok_bind, if_pos rfl, hrun]
  | false =>
    refine ⟨0, st, x, ?_, SameShape.refl st, hb, fun _ _ => ?_, fun _ => Or.inr ⟨hfull, rfl⟩⟩
    · rw [makeRoom, hfull, ok_bind, if_neg Bool.false_ne_true]
    · -- a window of the whole block starts at its front, and is full
      by_contra hlt
      have heq : st.cur + st.level = st.bufsize := by
        unfold InBounds at hb
        omega
      rw [bufferFullP_of_full htype heq] at hfull
      cases hfull

/-- **A write that fits stays inside the block.** Each round of its loop
copies a byte or marks a full block dirty, which the next one flushes. -/
theorem writeBuffered_ok (hT : T.WritesWithin) (fuel : ℕ) (buf : Bytes) (hseek : st.canSeek = false)
    (htype : st.buftype ≠ .none) (hpos : 0 < st.bufsize) (hb : st.InBounds) (x : σ)
    (hfit : st.cur = 0 ∨ st.bufferFullP = .ok true ∨
      st.cur + st.level + buf.length ≤ st.bufsize)
    (hfuel : 2 * buf.length + (if st.dirty then 0 else 1) < fuel) :
    ∃ rc st' x', writeBuffered L T fuel buf st x = .ok (rc, st', x') ∧ SameShape st st' ∧
      st'.InBounds := by
  induction fuel generalizing buf st x with
  | zero => omega
  | succ fuel ih =>
    obtain ⟨rc, st₁, x₁, hroom, hs, hb₁, hdirty, hcur⟩ :=
      makeRoom_ok (L := L) hT hseek htype hpos hb x
    simp only [writeBuffered, hroom, ok_bind]
    by_cases hrc : rc = 0
    · rw [if_neg (not_not.2 hrc)]
      by_cases hnil : buf.length = 0
      · exact ⟨0, st₁, x₁, if_pos hnil, hs, hb₁⟩
      rw [if_neg hnil]
      -- the room behind the window is what the loop takes it to be
      have hfit₁ : st₁.cur = 0 ∨ st₁.cur + st₁.level + buf.length ≤ st₁.bufsize := by
        rcases hcur hrc with h | ⟨hnot, rfl⟩
        · exact Or.inl h
        · rcases hfit with h | h | h
          · exact Or.inl h
          · rw [hnot] at h
            cases h
          · exact Or.inr h
      have hbound : st₁.cur + st₁.level ≤ st₁.bufsize := hb₁
      set n := min (st₁.bufsize - st₁.level) buf.length with hn
      have hlen : (buf.take n).length = n := by rw [List.length_take]; omega
      have hin : st₁.cur + st₁.level + (buf.take n).length ≤ st₁.buffer.length := by
        rw [hlen]
        unfold bufsize at *
        omega
      obtain ⟨m, hm⟩ : ∃ m, poke st₁.buffer (st₁.cur + st₁.level) (buf.take n) = some m :=
        ⟨_, poke_eq_some hin⟩
      have hsize : m.length = st₁.bufsize := length_of_poke hm
      have hs₂ : SameShape st₁ { st₁ with buffer := m, level := st₁.level + n, dirty := true } :=
        ⟨rfl, hsize, rfl⟩
      rw [hm]
      have hb₂ : InBounds { st₁ with buffer := m, level := st₁.level + n, dirty := true } := by
        unfold InBounds
        rw [hs₂.bufsize]
        unfold bufsize at *
        simp only
        omega
      obtain ⟨rc', st', x', hrun, hs', hb'⟩ := ih (buf.drop n)
        (hs₂.canSeek.trans (hs.canSeek.trans hseek))
        (fun h => htype (hs.buftype.symm.trans (hs₂.buftype.symm.trans h)))
        (by rw [hs₂.bufsize, hs.bufsize]; exact hpos) hb₂ x₁
        (by
          rcases hfit₁ with h | h
          · exact Or.inl h
          · refine Or.inr (Or.inr ?_)
            rw [hs₂.bufsize, List.length_drop]
            simp only
            omega)
        (by
          have := hs.bufsize
          have := hdirty hrc
          rw [List.length_drop]
          simp only [if_true]
          split_ifs at hfuel with hd
          · have := this hd
            omega
          · omega)
      exact ⟨rc', st', x', hrun, (hs.trans hs₂).trans hs', hb'⟩
    · exact ⟨1, st₁, x₁, if_pos hrc, hs, hb₁⟩

/-- A write that does not fit runs over the end of the block in its first
copy. -/
theorem writeBuffered_fault {fuel : ℕ} {buf : Bytes} (hb : st.InBounds)
    (hcur : st.cur ≠ 0) (hfull : st.bufferFullP ≠ .ok true)
    (hlen : st.bufsize < st.cur + st.level + buf.length) :
    writeBuffered L T (fuel + 1) buf st x = .error .bounds := by
  obtain ⟨b, hp⟩ := bufferFullP_ok hb
  have hroom : makeRoom L T st x = .ok (0, st, x) := by
    cases b with
    | true => exact absurd hp hfull
    | false => rw [makeRoom, hp, ok_bind, if_neg Bool.false_ne_true]
  have hbound : st.cur + st.level ≤ st.bufsize := hb
  have hnil : ¬ buf.length = 0 := by omega
  -- the loop takes the room to be `bufsize - level`, of which `cur` bytes are not behind the window
  have hout : poke st.buffer (st.cur + st.level)
      (buf.take (min (st.bufsize - st.level) buf.length)) = none := by
    refine if_neg ?_
    rw [List.length_take]
    unfold bufsize at *
    omega
  simp only [writeBuffered, hroom, ok_bind, ne_eq, not_true_eq_false, if_false, if_neg hnil, hout]

/-- **`dico_stream_write` stays inside the block where the write fits.** -/
theorem write_ok (hT : T.WritesWithin) {buf : Bytes} (hseek : st.canSeek = false)
    (htype : st.buftype ≠ .none) (hpos : 0 < st.bufsize) (hb : st.InBounds) (x : σ)
    (hfit : st.Fits buf) :
    ∃ rc st' x', write L T st x buf = .ok (rc, st', x') ∧ SameShape st st' ∧ st'.InBounds := by
  rw [write, if_neg htype]
  by_cases herr : st.err = true
  · exact ⟨_, st, x, if_pos herr, SameShape.refl st, hb⟩
  · rw [if_neg herr]
    exact writeBuffered_ok hT _ buf hseek htype hpos hb x (hfit.resolve_left herr)
      (by split_ifs <;> omega)

/-- **And runs over its end where it does not.** -/
theorem write_fault {buf : Bytes} (htype : st.buftype ≠ .none) (hb : st.InBounds)
    (hfit : ¬ st.Fits buf) : write L T st x buf = .error .bounds := by
  simp only [Fits, not_or, not_le] at hfit
  obtain ⟨herr, hcur, hfull, hlen⟩ := hfit
  rw [write, if_neg htype, if_neg herr]
  exact writeBuffered_fault hb hcur hfull hlen

/-! ## Runs -/

/-- A call of the stream's user. -/
inductive Op
  | read (size : ℕ) (pread : Bool)
  | getline (size : ℕ)
  | write (buf : Bytes)
  | flush

/-- What a call does to the stream and its transport. -/
def Op.step (L : Limits) (T : Transport σ) : Op → DicoStream × σ → Except Fault (DicoStream × σ)
  | .read size pread, (st, x) => do
    let r ← st.read T x size pread
    .ok (r.st, r.dev)
  | .getline size, (st, x) => do
    let (_, _, _, st', x') ← st.getline L T x size
    .ok (st', x')
  | .write buf, (st, x) => do
    let (_, st', x') ← st.write L T x buf
    .ok (st', x')
  | .flush, (st, x) => do
    let (_, st', x') ← st.flush L T x
    .ok (st', x')

/-- What the call needs of the stream it is made on. -/
def Op.Fits : Op → DicoStream → Prop
  | .write buf, st => st.Fits buf
  | _, _ => True

instance (op : Op) (st : DicoStream) : Decidable (op.Fits st) :=
  match op with
  | .write buf => inferInstanceAs (Decidable (st.Fits buf))
  | .read _ _ => isTrue trivial
  | .getline _ => isTrue trivial
  | .flush => isTrue trivial

/-- A stream created without `DICO_STREAM_SEEK` and given a buffer. -/
def opened (canRead canWrite : Bool) (type : BufferType) (block : Bytes) : DicoStream :=
  { create canRead canWrite false with buftype := type, buffer := block }

/-- It is what `dico_stream_set_buffer` makes of a new stream. -/
theorem setBuffer_create (canRead canWrite : Bool) {type : BufferType} {block : Bytes}
    (htype : type ≠ .none) (hpos : 0 < block.length) (x : σ) :
    setBuffer L T (create canRead canWrite false) x type (some block) =
      .ok (0, opened canRead canWrite type block, x) := by
  cases type with
  | none => exact absurd rfl htype
  | line => exact if_neg (Nat.ne_of_gt hpos)
  | full => exact if_neg (Nat.ne_of_gt hpos)

/-- A call that fits goes through and keeps the window inside the block. -/
theorem Op.step_ok (hT : T.Honest) (hquiet : st.buftype = .full → T.QuietFailure)
    (hseek : st.canSeek = false) (htype : st.buftype ≠ .none) (hpos : 0 < st.bufsize)
    (hb : st.InBounds) (x : σ) (op : Op) (hfit : op.Fits st) :
    ∃ s', op.step L T (st, x) = .ok s' ∧ SameShape st s'.1 ∧ s'.1.InBounds := by
  cases op with
  | read size pread =>
    obtain ⟨r, hr, hs, hb'⟩ := read_ok hT hquiet htype hb x size pread
    exact ⟨(r.st, r.dev), by simp only [step, hr, ok_bind], hs, hb'⟩
  | getline size =>
    obtain ⟨rc, line, size', st', x', hr, hs, hb'⟩ := getline_ok (L := L) hT hquiet htype hb x size
    exact ⟨(st', x'), by simp only [step, hr, ok_bind], hs, hb'⟩
  | write buf =>
    obtain ⟨rc, st', x', hr, hs, hb'⟩ :=
      write_ok (L := L) hT.write_le hseek htype hpos hb x hfit
    exact ⟨(st', x'), by simp only [step, hr, ok_bind], hs, hb'⟩
  | flush =>
    obtain ⟨rc, st', x', hr, hs, hb'⟩ := flush_ok (L := L) hT.write_le hseek htype hpos hb x
    exact ⟨(st', x'), by simp only [step, hr, ok_bind], hs, hb'⟩

/-- A call that does not fit does not go through. -/
theorem Op.fits_of_step (htype : st.buftype ≠ .none) (hb : st.InBounds) {op : Op}
    {s' : DicoStream × σ} (h : op.step L T (st, x) = .ok s') : op.Fits st := by
  cases op with
  | read size pread => trivial
  | getline size => trivial
  | write buf =>
    by_contra hnot
    simp only [step, write_fault htype hb hnot, error_bind, reduceCtorEq] at h
  | flush => trivial

/-- **Reading, writing and flushing stay inside the block exactly as long
as every write fits.** The stream is buffered, opened for reading and
writing without seeking, over a transport that reports no more bytes
than it has room for and, under a full buffer, none with a failed
read. -/
theorem runOps_safe_iff (hT : T.Honest) {type : BufferType} (htype : type ≠ .none)
    (hquiet : type = .full → T.QuietFailure) {block : Bytes} (hpos : 0 < block.length)
    (ops : List Op) (x : σ) :
    Run.Safe (Op.step L T) (fun s : DicoStream × σ => s.1.InBounds) ops
        (opened true true type block, x) ↔
      Run.Guarded (Op.step L T) (fun op (s : DicoStream × σ) => op.Fits s.1) ops
        (opened true true type block, x) := by
  have hshape : ∀ {s : DicoStream}, SameShape (opened true true type block) s →
      s.canSeek = false ∧ s.buftype ≠ .none ∧ 0 < s.bufsize ∧
        (s.buftype = .full → T.QuietFailure) := by
    intro s hs
    have h1 : s.buftype = type := hs.buftype
    have h2 : s.bufsize = block.length := hs.bufsize
    exact ⟨hs.canSeek, h1.symm ▸ htype, h2.symm ▸ hpos, h1.symm ▸ hquiet⟩
  refine Run.safe_iff_guarded
    (fun s : DicoStream × σ => SameShape (opened true true type block) s.1 ∧ s.1.InBounds)
    (fun s h => h.2) ?_ ?_ ⟨SameShape.refl _, ?_⟩
  · rintro op ⟨st, y⟩ ⟨hs, hb⟩ hfit
    obtain ⟨hseek, ht, hp, hq⟩ := hshape hs
    obtain ⟨s', hrun, hs', hb'⟩ := Op.step_ok (L := L) hT hq hseek ht hp hb y op hfit
    exact ⟨s', hrun, hs.trans hs', hb'⟩
  · rintro op ⟨st, y⟩ s' ⟨hs, hb⟩ hnot hrun
    exact absurd (Op.fits_of_step (hshape hs).2.1 hb hrun) hnot
  · exact Nat.zero_le _

/-- A transport that hands out three bytes at a time and takes whatever it
is given. -/
def triplets : Transport Bytes where
  read := some fun x n => (.ok (x.take (min n 3)), x.drop (min n 3))
  write := some fun x buf => (.ok buf.length, x)
  flush := none
  seek := none

/-- Resources to spare. -/
def ample : Limits := ⟨16, 1024, by decide⟩

theorem triplets_honest : triplets.Honest where
  read_le := by
    rintro rd hrd x n data x' h
    cases hrd
    cases h
    rw [List.length_take]
    omega
  stored_le := by
    rintro rd hrd x n rc data x' h
    cases hrd
    cases h
  write_le := by
    rintro wr hwr x buf n x' h
    cases hwr
    cases h
    exact Nat.le_refl _

theorem triplets_quietFailure : triplets.QuietFailure := by
  rintro rd hrd x n rc data x' h
  cases hrd
  cases h

/-- A read that leaves read-ahead behind, and a write after a flush has
moved it to the front. -/
theorem runOps_safe_flush_between :
    Run.Safe (Op.step ample triplets) (fun s : DicoStream × Bytes => s.1.InBounds)
      [.read 1 true, .flush, .write [7, 8], .flush]
      (opened true true .full [0, 0, 0, 0], [1, 2, 3, 4, 5]) :=
  (runOps_safe_iff triplets_honest (by decide) (fun _ => triplets_quietFailure) (by decide)
    _ _).2 (by decide)

/-- **Without the flush the write runs over the end of the block**: the
window is the two bytes at offset one of a block of four, and two more
are copied behind it. -/
theorem runOps_overrun :
    ¬ Run.Safe (Op.step ample triplets) (fun s : DicoStream × Bytes => s.1.InBounds)
      [.read 1 true, .write [7, 8]]
      (opened true true .full [0, 0, 0, 0], [1, 2, 3, 4, 5]) := by
  intro h
  obtain ⟨s', hrun, -⟩ := h _ (List.prefix_refl _)
  have hfault : Run.run (Op.step ample triplets) [.read 1 true, .write [7, 8]]
      (opened true true .full [0, 0, 0, 0], [1, 2, 3, 4, 5]) = .error .bounds := by rfl
  rw [hfault] at hrun
  cases hrun

end DicoStream

end Dico
