import Dico.Common.Lines
import Dico.Stream.Model
/-!
# Seeking on a buffered stream

A stream over a file reads ahead, so its transport is behind the position
the user knows by what is in the buffer. `dico_stream_seek` flushes the
buffer, which on a stream that was only read does not empty it, and moves
the transport: what was read ahead is still there, and a relative seek
counts from the transport. A stream with a line buffer hands out no more
than a line, and does not hand out a last line without a newline.

Two streams, one buffered and one not, are run side by side. As long as
the buffer is empty at every seek, and no read is of the kind that fails,
they return the same.
-/

namespace Dico

open Memory

/-- `EINVAL`. -/
def EINVAL : Errno := ⟨22, by decide⟩

/-! ## The transport -/

section File

variable (content : Bytes)

/-- Where a seek goes to, from a position. -/
def seekTarget (p : ℕ) (offset : ℤ) : Whence → ℤ
  | .set => offset
  | .cur => p + offset
  | .ofEnd => content.length + offset

/-- A seek that stays in the file. -/
def SeekInRange (p : ℕ) (offset : ℤ) (whence : Whence) : Prop :=
  0 ≤ seekTarget content p offset whence ∧ seekTarget content p offset whence ≤ content.length

instance (p : ℕ) (offset : ℤ) (whence : Whence) :
    Decidable (SeekInRange content p offset whence) :=
  inferInstanceAs (Decidable (_ ∧ _))

/-- `_mapfile_read`; an empty file is not mapped. -/
def mapfileRead (offset size : ℕ) : ReadReply × ℕ :=
  if content = [] then (.fail EINVAL none, offset)
  else
    let n := if content.length < offset + size then content.length - offset else size
    (.ok ((content.drop offset).take n), offset + n)

/-- `_mapfile_seek`. -/
def mapfileSeek (offset : ℕ) (needle : ℤ) (whence : Whence) : SeekReply × ℕ :=
  let target := seekTarget content offset needle whence
  if target < 0 ∨ content.length < target then (.fail EINVAL, offset)
  else (.ok target, target.toNat)

/-- `dico_mapfile_stream_create`: the transport, whose state is its
position. -/
def mapfile : Transport ℕ where
  read := some (mapfileRead content)
  write := none
  flush := none
  seek := some (mapfileSeek content)

/-- A transport that is a file one can seek in: it reads what is asked for
as far as the file has it, and moves where it is told inside the file. -/
structure Transport.FileLike {σ : Type} (T : Transport σ) (content : Bytes) (pos : σ → ℕ) :
    Prop where
  read : ∃ rd, T.read = some rd ∧ (content ≠ [] → ∀ x n, pos x ≤ content.length →
    ∃ x', rd x n = (.ok ((content.drop (pos x)).take n), x') ∧
      pos x' = pos x + ((content.drop (pos x)).take n).length)
  flush : ∀ fl, T.flush = some fl → ∀ x, (fl x).1 = 0 ∧ pos (fl x).2 = pos x
  seek : ∃ sk, T.seek = some sk ∧ ∀ x offset whence, SeekInRange content (pos x) offset whence →
    ∃ x', sk x offset whence = (.ok (seekTarget content (pos x) offset whence), x') ∧
      (pos x' : ℤ) = seekTarget content (pos x) offset whence

/-- **A mapped file is one.** -/
theorem mapfile_fileLike : (mapfile content).FileLike content id where
  read := by
    refine ⟨_, rfl, fun hne offset size hle => ?_⟩
    rw [id_eq] at hle ⊢
    rw [mapfileRead, if_neg hne]
    dsimp only
    split_ifs with hlt
    · have htake : (content.drop offset).take (content.length - offset) =
          (content.drop offset).take size := by
        rw [List.take_of_length_le (by rw [List.length_drop]),
          List.take_of_length_le (by rw [List.length_drop]; omega)]
      refine ⟨_, by rw [htake], ?_⟩
      rw [id_eq, List.length_take, List.length_drop]
      omega
    · refine ⟨_, rfl, ?_⟩
      rw [id_eq, List.length_take, List.length_drop]
      omega
  flush fl h := by cases h
  seek := by
    refine ⟨_, rfl, fun offset needle whence h => ?_⟩
    obtain ⟨hnonneg, hle⟩ := h
    rw [id_eq] at hnonneg hle ⊢
    refine ⟨(seekTarget content offset needle whence).toNat, ?_, ?_⟩
    · rw [mapfileSeek, if_neg (by omega)]
    · rw [id_eq]
      omega

end File

namespace DicoStream

variable {σ : Type}

/-! ## Two streams side by side -/

/-- A call on a stream that is only read. -/
inductive FileOp
  | read (size : ℕ) (pread : Bool)
  | seek (offset : ℤ) (whence : Whence)
  deriving DecidableEq, Repr

/-- What the caller is told: of a read the value, the bytes and the count,
of a seek the position. -/
inductive Outcome
  | read (rc : ℕ) (data : Bytes) (count : Option ℕ)
  | seek (pos : ℤ)
  deriving DecidableEq, Repr

/-- A call. -/
def FileOp.apply (L : Limits) (T : Transport σ) :
    FileOp → DicoStream × σ → Except Fault (Outcome × DicoStream × σ)
  | .read size pread, (st, x) => do
    let r ← st.read T x size pread
    .ok (.read r.rc r.data r.pread, r.st, r.dev)
  | .seek offset whence, (st, x) => do
    let (pos, st, x) ← st.seek L T x offset whence
    .ok (.seek pos, st, x)

/-- What the caller of a read is told. -/
theorem FileOp.apply_read (L : Limits) {T : Transport σ} {st st' : DicoStream} {x x' : σ}
    {size rc : ℕ} {pread : Bool} {data : Bytes} {count : Option ℕ}
    (h : st.read T x size pread = .ok ⟨rc, data, count, st', x'⟩) :
    (FileOp.read size pread).apply L T (st, x) = .ok (.read rc data count, st', x') := by
  rw [FileOp.apply, h, ok_bind]

/-- And of a seek. -/
theorem FileOp.apply_seek {L : Limits} {T : Transport σ} {st st' : DicoStream} {x x' : σ}
    {offset target : ℤ} {whence : Whence}
    (h : st.seek L T x offset whence = .ok (target, st', x')) :
    (FileOp.seek offset whence).apply L T (st, x) = .ok (.seek target, st', x') := by
  rw [FileOp.apply, h, ok_bind]

/-- A stream with a buffer and one without, and what their callers were
told. -/
structure Twins (σ : Type) where
  buffered : DicoStream × σ
  plain : DicoStream × σ
  outcomes : List (Outcome × Outcome)

/-- The same call on both. -/
def Twins.step (L : Limits) (T : Transport σ) (op : FileOp) (t : Twins σ) :
    Except Fault (Twins σ) := do
  let (o, buffered) ← op.apply L T t.buffered
  let (o', plain) ← op.apply L T t.plain
  .ok ⟨buffered, plain, t.outcomes ++ [(o, o')]⟩

/-- They were told the same. -/
def Twins.Alike (t : Twins σ) : Prop := ∀ o ∈ t.outcomes, o.1 = o.2

/-- Streams opened for reading and seeking. -/
def Twins.opened (type : BufferType) (block : Bytes) (x : σ) : Twins σ where
  buffered := ({ create true false true with buftype := type, buffer := block }, x)
  plain := (create true false true, x)
  outcomes := []

/-- The one is what `dico_stream_set_buffer` makes of the other. -/
theorem setBuffer_create_seek (L : Limits) (T : Transport σ) {type : BufferType} {block : Bytes}
    (htype : type ≠ .none) (hpos : 0 < block.length) (x : σ) :
    setBuffer L T (Twins.opened type block x).plain.1 x type (some block) =
      .ok (0, (Twins.opened type block x).buffered) := by
  cases type with
  | none => exact absurd rfl htype
  | line => exact if_neg (Nat.ne_of_gt hpos)
  | full => exact if_neg (Nat.ne_of_gt hpos)

/-! ## When they are alike -/

section Condition

variable (content : Bytes)

/-- Where the last piece begins that a line buffer of `bufsize` has to be
filled with to serve `m` bytes from `p` on, of which it has `level`. -/
def lastFill (bufsize p level m : ℕ) : ℕ := p + level + (m - 1 - level) / bufsize * bufsize

/-- A read through a line buffer: there is something to read, no newline in
it but at the end, and the last piece ends in a newline, or is as long as
the buffer. -/
def LineServes (bufsize p level size : ℕ) : Prop :=
  let m := min size (content.length - p)
  p < content.length ∧ newline ∉ (content.drop p).take (m - 1) ∧
    (level < m → newline ∈ content.drop (lastFill bufsize p level m) ∨
      lastFill bufsize p level m + bufsize ≤ content.length)

/-- A call in range, at a position. -/
def FileOp.InRange (p : ℕ) : FileOp → Prop
  | .read _ _ => True
  | .seek offset whence => SeekInRange content p offset whence

/-- A call that a buffered stream serves as one without a buffer does. A
read without a place for the count has something to read, and does not go
beyond the end of the file; nothing is read of an empty file; and a line
buffer serves it. At a seek the buffer is empty, and from the end it does
not go back to a place that was in the buffer last. -/
def FileOp.Served (st : DicoStream) (p : ℕ) : FileOp → Prop
  | .read size pread =>
    (pread = false → 0 < size ∧ p + size ≤ content.length) ∧
    (0 < size → content ≠ [] ∧ (st.buftype = .line → LineServes content st.bufsize p st.level size))
  | .seek offset whence =>
    st.level = 0 ∧ ¬ (whence = .ofEnd ∧ -(st.cur : ℤ) ≤ offset ∧ offset < 0)

instance (bufsize p level size : ℕ) : Decidable (LineServes content bufsize p level size) :=
  inferInstanceAs (Decidable (_ ∧ _ ∧ (_ → _)))

instance (p : ℕ) : (op : FileOp) → Decidable (op.InRange content p)
  | .read _ _ => isTrue trivial
  | .seek offset whence => inferInstanceAs (Decidable (SeekInRange content p offset whence))

instance (st : DicoStream) (p : ℕ) : (op : FileOp) → Decidable (op.Served content st p)
  | .read _ _ => inferInstanceAs (Decidable ((_ → _) ∧ (_ → _)))
  | .seek _ _ => inferInstanceAs (Decidable (_ ∧ ¬ _))

/-- The guard of a call: the position is that of the stream without a
buffer. -/
def Twins.Guard (pos : σ → ℕ) (op : FileOp) (t : Twins σ) : Prop :=
  op.InRange content (pos t.plain.2) ∧ op.Served content t.buffered.1 (pos t.plain.2)

instance (pos : σ → ℕ) (op : FileOp) (t : Twins σ) : Decidable (t.Guard content pos op) :=
  inferInstanceAs (Decidable (_ ∧ _))

end Condition

/-! ## Reading without a buffer -/

section Unbuffered

variable {T : Transport σ} {content : Bytes} {pos : σ → ℕ} {st : DicoStream} {x : σ}

/-- A stream of which only what reading touches has changed. -/
def Touched (st st' : DicoStream) : Prop :=
  ∃ eof bytesIn lastErr, st' = { st with eof := eof, bytesIn := bytesIn, lastErr := lastErr }

/-- A stream that reads a file: it may, nothing went wrong, and where it
says that it is at the end it is. -/
structure Reads (content : Bytes) (pos : σ → ℕ) (st : DicoStream) (x : σ) : Prop where
  canRead : st.canRead = true
  canSeek : st.canSeek = true
  dirty : st.dirty = false
  err : st.err = false
  pos_le : pos x ≤ content.length
  eof : st.eof = true → pos x = content.length

/-- What is read from a position. -/
theorem length_piece {p size : ℕ} :
    ((content.drop p).take size).length = min size (content.length - p) := by
  rw [List.length_take, List.length_drop]

/-- With a place for the count, one call of the transport. -/
theorem Reads.count (hT : T.FileLike content pos) (h : Reads content pos st x) {size : ℕ}
    (hne : 0 < size → content ≠ []) :
    ∃ st' x', readUnbuffered T st x size true = .ok ⟨0, (content.drop (pos x)).take size,
        some ((content.drop (pos x)).take size).length, st', x'⟩ ∧ Touched st st' ∧
      pos x' = pos x + ((content.drop (pos x)).take size).length ∧ Reads content pos st' x' := by
  obtain ⟨rd, hrd, hread⟩ := hT.read
  by_cases hnone : st.eof = true ∨ size = 0
  · -- nothing is asked of the transport
    have hnil : (content.drop (pos x)).take size = [] := by
      rcases hnone with heof | rfl
      · rw [List.drop_eq_nil_of_le (h.eof heof).ge, List.take_nil]
      · exact List.take_zero
    refine ⟨st, x, ?_, ⟨_, _, _, rfl⟩, by rw [hnil]; rfl, h⟩
    have hcond : (st.eof || size == 0) = true := by
      rw [Bool.or_eq_true, beq_iff_eq]
      exact hnone
    simp only [readUnbuffered, hrd, h.canRead, h.err, hcond, hnil, Bool.not_true, if_true,
      Bool.false_eq_true, if_false, List.length_nil]
  · rw [not_or] at hnone
    obtain ⟨x', hcall, hpos⟩ := hread (hne (by omega)) x size h.pos_le
    have hlen := @length_piece content (pos x) size
    have heof : st.eof = false := Bool.eq_false_iff.2 hnone.1
    have hcond : (st.eof || size == 0) = false := by
      rw [heof, Bool.false_or, beq_eq_false_iff_ne]
      exact hnone.2
    refine ⟨{ st with eof := st.eof || ((content.drop (pos x)).take size).length == 0,
                      bytesIn := st.bytesIn + ((content.drop (pos x)).take size).length,
                      lastErr := 0 }, x', ?_, ⟨_, _, _, rfl⟩, hpos,
      ⟨h.canRead, h.canSeek, h.dirty, h.err, ?_, ?_⟩⟩
    · simp only [readUnbuffered, hrd, h.canRead, h.err, hcond, hcall, Bool.not_true,
        Bool.false_eq_true, if_false, if_true]
      rw [if_neg (by omega)]
    · have hle := h.pos_le
      omega
    · intro hzero
      dsimp only at hzero
      rw [heof, Bool.false_or, beq_iff_eq] at hzero
      have hle := h.pos_le
      omega

/-- Without one, where the file has as much. -/
theorem Reads.whole (hT : T.FileLike content pos) (h : Reads content pos st x) {size : ℕ}
    (hsize : 0 < size) (hle : pos x + size ≤ content.length) :
    ∃ st' x', readUnbuffered T st x size false =
        .ok ⟨0, (content.drop (pos x)).take size, none, st', x'⟩ ∧ Touched st st' ∧
      pos x' = pos x + size ∧ Reads content pos st' x' := by
  obtain ⟨rd, hrd, hread⟩ := hT.read
  have hlen := @length_piece content (pos x) size
  have hne : content ≠ [] := by
    rintro rfl
    rw [List.length_nil] at hle
    omega
  obtain ⟨x', hcall, hpos⟩ := hread hne x size h.pos_le
  have heof : st.eof = false := by
    rw [Bool.eq_false_iff]
    intro heof
    have := h.eof heof
    omega
  have hcond : (st.eof || size == 0) = false := by
    rw [heof, Bool.false_or, beq_eq_false_iff_ne]
    omega
  have hloop : readLoop rd size size [] x =
      .ok (0, (content.drop (pos x)).take size, false, x') := by
    obtain ⟨k, rfl⟩ : ∃ k, size = k + 1 := ⟨size - 1, by omega⟩
    rw [readLoop, if_neg (by omega), hcall]
    dsimp only
    rw [if_neg (by omega), if_neg (by omega), List.nil_append,
      show k + 1 - ((content.drop (pos x)).take (k + 1)).length = 0 by omega]
    cases k with
    | zero => rfl
    | succ k => rw [readLoop, if_pos rfl]
  refine ⟨{ st with bytesIn := st.bytesIn + ((content.drop (pos x)).take size).length,
                    lastErr := 0 }, x', ?_, ⟨_, _, _, rfl⟩, by omega,
    ⟨h.canRead, h.canSeek, h.dirty, h.err, ?_, ?_⟩⟩
  · simp only [readUnbuffered, hrd, h.canRead, h.err, hcond, hloop, ok_bind, Bool.not_true,
      Bool.false_eq_true, if_false]
    rw [if_neg (by omega)]
    simp only [seterror, heof, Bool.or_false, bne_self_eq_false]
  · omega
  · intro hzero
    dsimp only at hzero
    rw [heof] at hzero
    cases hzero

/-- And where it has less. -/
theorem Reads.short (hT : T.FileLike content pos) (h : Reads content pos st x) {size : ℕ}
    (hne : content ≠ []) (hlt : content.length < pos x + size) :
    ∃ st' x', readUnbuffered T st x size false =
        .ok ⟨ EIO.val, content.drop (pos x), none, st', x'⟩ ∧ Touched st st' ∧
      pos x' = content.length ∧ Reads content pos st' x' := by
  obtain ⟨rd, hrd, hread⟩ := hT.read
  have hle := h.pos_le
  by_cases heof : st.eof = true
  · have hend := h.eof heof
    have hnil : content.drop (pos x) = [] := List.drop_eq_nil_of_le hend.ge
    refine ⟨st.seterror EIO.val false, x, ?_, ⟨st.eof, st.bytesIn, EIO.val, ?_⟩, hend,
      ⟨h.canRead, h.canSeek, h.dirty, ?_, h.pos_le, h.eof⟩⟩
    · simp only [readUnbuffered, hrd, h.canRead, h.err, heof, hnil, Bool.true_or, Bool.not_true,
        if_true, Bool.false_eq_true, if_false]
    · rw [seterror, Bool.or_false]
    · rw [seterror, h.err]
      rfl
  · have heof' : st.eof = false := Bool.eq_false_iff.2 heof
    have hsize : (size == 0) = false := by
      rw [beq_eq_false_iff_ne]
      omega
    have hall : ∀ n y, pos y ≤ content.length → content.length ≤ pos y + n →
        ∃ y', rd y n = (.ok (content.drop (pos y)), y') ∧ pos y' = content.length := by
      intro n y hy hn
      obtain ⟨y', hcall, hpos⟩ := hread hne y n hy
      rw [List.take_of_length_le (by rw [List.length_drop]; omega)] at hcall hpos
      rw [List.length_drop] at hpos
      exact ⟨y', hcall, by omega⟩
    have hloop : ∃ x', readLoop rd size size [] x = .ok (0, content.drop (pos x), true, x') ∧
        pos x' = content.length := by
      obtain ⟨k, rfl⟩ : ∃ k, size = k + 1 := ⟨size - 1, by omega⟩
      obtain ⟨x₁, hcall, hpos₁⟩ := hall (k + 1) x hle (by omega)
      have hlen := @List.length_drop _ (pos x) content
      rw [readLoop, if_neg (by omega), hcall]
      dsimp only
      rw [if_neg (by omega), List.nil_append]
      by_cases hzero : (content.drop (pos x)).length = 0
      · rw [if_pos hzero, List.eq_nil_of_length_eq_zero hzero]
        exact ⟨x₁, rfl, hpos₁⟩
      · -- the next round finds nothing
        obtain ⟨j, rfl⟩ : ∃ j, k = j + 1 := ⟨k - 1, by omega⟩
        obtain ⟨x₂, hcall₂, hpos₂⟩ :=
          hall (j + 1 + 1 - (content.drop (pos x)).length) x₁ hpos₁.le (by omega)
        rw [hpos₁, List.drop_length] at hcall₂
        rw [if_neg hzero, readLoop, if_neg (by omega), hcall₂]
        exact ⟨x₂, rfl, hpos₂⟩
    obtain ⟨x', hloop, hpos⟩ := hloop
    refine ⟨_, x', ?_,
      ⟨true, st.bytesIn + (content.drop (pos x)).length, EIO.val, rfl⟩, hpos,
      ⟨h.canRead, h.canSeek, h.dirty, h.err, hpos.le, fun _ => hpos⟩⟩
    simp only [readUnbuffered, hrd, h.canRead, h.err, hsize, hloop, ok_bind, Bool.not_true,
      Bool.false_eq_true, if_false, heof', Bool.false_or]
    rw [if_pos (by rw [List.length_drop]; omega)]
    rfl

/-- At the end of the file nothing is left. -/
theorem Reads.atEnd (hT : T.FileLike content pos) (h : Reads content pos st x)
    (hne : content ≠ []) (hend : pos x = content.length) :
    ∃ st' x', readUnbuffered T st x 1 false = .ok ⟨ EIO.val, [], none, st', x'⟩ ∧
      Touched st st' ∧ pos x' = pos x ∧ Reads content pos st' x' := by
  obtain ⟨st', x', hread, htouched, hpos, hreads⟩ := h.short hT hne (by omega : _ < pos x + 1)
  rw [List.drop_eq_nil_of_le hend.ge] at hread
  exact ⟨st', x', hread, htouched, hpos.trans hend.symm, hreads⟩

end Unbuffered

/-! ## Filling the buffer -/

section Filling

variable {T : Transport σ} {content : Bytes} {pos : σ → ℕ} {st st' : DicoStream} {x : σ}

/-- A touched stream has the buffer it had. -/
theorem Touched.buffer_eq (h : Touched st st') :
    st'.buftype = st.buftype ∧ st'.buffer = st.buffer := by
  obtain ⟨eof, bytesIn, lastErr, rfl⟩ := h
  exact ⟨rfl, rfl⟩

/-- A buffered stream that stands at `p`: what is in its buffer follows,
and the transport is behind that. -/
structure Ahead (content : Bytes) (pos : σ → ℕ) (st : DicoStream) (x : σ) (p : ℕ) : Prop where
  reads : Reads content pos st x
  buftype : st.buftype ≠ .none
  bufsize_pos : 0 < st.bufsize
  pos_eq : pos x = p + st.level
  buffer : peek st.buffer st.cur st.level = some ((content.drop p).take st.level)

/-- The same kind of buffer. -/
def SameBlock (st st' : DicoStream) : Prop :=
  st'.buftype = st.buftype ∧ st'.bufsize = st.bufsize

/-- **A full buffer is filled with what follows.** -/
theorem Ahead.fillFull (hT : T.FileLike content pos) {p : ℕ} (h : Ahead content pos st x p)
    (htype : st.buftype = .full) (hlevel : st.level = 0) (hne : content ≠ []) :
    ∃ st' x', fillBuffer T st x = .ok (0, st', x') ∧ Ahead content pos st' x' p ∧
      SameBlock st st' ∧ st'.level = min st.bufsize (content.length - p) := by
  have hp : pos x = p := by
    have hpos := h.pos_eq
    omega
  obtain ⟨st', x', hread, htouched, hpos', hreads⟩ :=
    h.reads.count hT fun (_ : 0 < st.bufsize) => hne
  obtain ⟨htype', hbuffer⟩ := htouched.buffer_eq
  rw [hp] at hread hpos'
  have hlen := @length_piece content p st.bufsize
  have hfits : 0 + ((content.drop p).take st.bufsize).length ≤ st'.buffer.length := by
    rw [hbuffer, hlen, ← bufsize]
    omega
  obtain ⟨m, hpoke⟩ : ∃ m, poke st'.buffer 0 ((content.drop p).take st.bufsize) = some m :=
    ⟨_, poke_eq_some hfits⟩
  have hlength := length_of_poke hpoke
  refine ⟨{ st' with buffer := m, level := ((content.drop p).take st.bufsize).length, cur := 0 },
    x', ?_, ⟨⟨hreads.canRead, hreads.canSeek, hreads.dirty, hreads.err, hreads.pos_le,
      hreads.eof⟩, ?_, ?_, hpos', ?_⟩, ⟨htype', ?_⟩, hlen⟩
  · simp only [fillBuffer, htype, hread, ok_bind, hpoke, Option.getD_some]
    rfl
  · exact htype'.trans_ne h.buftype
  · rw [bufsize, hlength, hbuffer]
    exact h.bufsize_pos
  · dsimp only
    rw [peek_poke hpoke, List.length_take, ← List.take_eq_take_min]
  · rw [bufsize, hlength, hbuffer, ← bufsize]

/-- One byte is read, and stored behind the `n` the block has. -/
theorem Reads.store (hT : T.FileLike content pos) (h : Reads content pos st x)
    (hlt : pos x < content.length) {n : ℕ} {filled : Bytes} (hn : n < st.bufsize)
    (hfilled : peek st.buffer 0 n = some filled) :
    ∃ b st' m x', content.drop (pos x) = b :: content.drop (pos x + 1) ∧
      readUnbuffered T st x 1 false = .ok ⟨0, [b], none, st', x'⟩ ∧
      poke st'.buffer n [b] = some m ∧ peek m 0 (n + 1) = some (filled ++ [b]) ∧
      SameBlock st { st' with buffer := m } ∧ pos x' = pos x + 1 ∧
      Reads content pos { st' with buffer := m } x' := by
  obtain ⟨st', x', hread, htouched, hpos', hreads⟩ := h.whole hT Nat.one_pos hlt
  obtain ⟨htype, hbuffer⟩ := htouched.buffer_eq
  obtain ⟨b, hdrop⟩ : ∃ b, content.drop (pos x) = b :: content.drop (pos x + 1) :=
    ⟨_, List.drop_eq_getElem_cons hlt⟩
  rw [hdrop, List.take_succ_cons, List.take_zero] at hread
  rw [← hbuffer] at hfilled
  obtain ⟨m, hpoke⟩ : ∃ m, poke st'.buffer n [b] = some m := ⟨_, poke_eq_some (by
    rw [hbuffer, ← bufsize, List.length_singleton]
    omega)⟩
  refine ⟨b, st', m, x', hdrop, hread, hpoke, ?_, ⟨htype, ?_⟩, hpos',
    ⟨hreads.canRead, hreads.canSeek, hreads.dirty, hreads.err, hreads.pos_le, hreads.eof⟩⟩
  · exact peek_poke_append hfilled (by rw [Nat.zero_add]; exact hpoke)
  · rw [bufsize, length_of_poke hpoke, hbuffer, ← bufsize]

/-- **A line buffer is filled with what is left of a line**, byte by byte:
`fuel` of it at most, behind the `n` bytes it has. The end of the file
before a newline is an error. -/
theorem Reads.fill (hT : T.FileLike content pos) (hne : content ≠ []) (fuel : ℕ) {n : ℕ}
    {filled : Bytes} (h : Reads content pos st x) (hsize : st.bufsize = n + fuel)
    (hfilled : peek st.buffer 0 n = some filled) :
    ∃ st' x', fillLine T fuel n st x =
        .ok (if newline ∈ content.drop (pos x) ∨ pos x + fuel ≤ content.length then 0 else EIO.val,
          n + (Lines.cutLine newline fuel (content.drop (pos x))).length, st', x') ∧
      Reads content pos st' x' ∧ SameBlock st st' ∧
      pos x' = pos x + (Lines.cutLine newline fuel (content.drop (pos x))).length ∧
      peek st'.buffer 0 (n + (Lines.cutLine newline fuel (content.drop (pos x))).length) =
        some (filled ++ Lines.cutLine newline fuel (content.drop (pos x))) := by
  induction fuel generalizing n filled st x with
  | zero =>
    refine ⟨st, x, ?_, h, ⟨rfl, rfl⟩, rfl, ?_⟩
    · rw [fillLine, if_pos (Or.inr (by rw [Nat.add_zero]; exact h.pos_le))]
      rfl
    · rw [Lines.cutLine, List.append_nil]
      exact hfilled
  | succ fuel ih =>
    by_cases hend : pos x = content.length
    · -- the end of the file
      obtain ⟨st', x', hread, htouched, hpos', hreads⟩ := h.atEnd hT hne hend
      obtain ⟨htype, hbuffer⟩ := htouched.buffer_eq
      have hdrop : content.drop (pos x) = [] := List.drop_eq_nil_of_le hend.ge
      have hnot : ¬ (newline ∈ ([] : Bytes) ∨ pos x + (fuel + 1) ≤ content.length) := by
        rintro (hmem | hle)
        · cases hmem
        · omega
      refine ⟨st', x', ?_, hreads, ⟨htype, by rw [bufsize, bufsize, hbuffer]⟩, ?_, ?_⟩
      · rw [fillLine, if_pos (by omega), hread, ok_bind, hdrop, if_neg hnot]
        rfl
      · rw [hdrop]
        exact hpos'
      · rw [hdrop, hbuffer, Lines.cutLine, List.append_nil]
        exact hfilled
    · have hlt : pos x < content.length := by
        have := h.pos_le
        omega
      obtain ⟨b, st', m, x', hdrop, hread, hpoke, hpeek, hsame, hpos', hreads⟩ :=
        h.store hT hlt (by omega : n < st.bufsize) hfilled
      rw [fillLine, if_pos (by omega), hread, ok_bind, if_neg (by simp only [ne_eq,
        not_true_eq_false, not_false_eq_true])]
      dsimp only [charRead, List.headD_cons]
      rw [hpoke]
      dsimp only
      by_cases hnl : b = newline
      · rw [hdrop, if_pos hnl, Lines.cutLine, if_pos hnl, if_pos (Or.inl (by
          rw [hnl]
          exact List.mem_cons_self))]
        exact ⟨_, x', rfl, hreads, hsame, hpos', hpeek⟩
      · obtain ⟨st'', x'', hfill, hreads'', hsame'', hpos'', hpeek''⟩ := ih hreads (by
          rw [hsame.2]
          omega) hpeek
        rw [hpos'] at hfill hpos'' hpeek''
        rw [if_neg hnl, hdrop, Lines.cutLine, if_neg hnl, List.length_cons, hfill]
        have hcond : newline ∈ b :: content.drop (pos x + 1) ∨
              pos x + (fuel + 1) ≤ content.length ↔
            newline ∈ content.drop (pos x + 1) ∨ pos x + 1 + fuel ≤ content.length := by
          rw [List.mem_cons, or_iff_right (Ne.symm hnl), Nat.add_assoc (pos x), Nat.add_comm 1]
        refine ⟨st'', x'', ?_, hreads'', ?_, by omega, ?_⟩
        · simp only [hcond, Nat.add_assoc, Nat.add_comm 1]
        · exact ⟨hsame''.1.trans hsame.1, hsame''.2.trans hsame.2⟩
        · rw [List.append_cons, ← hpeek'']
          congr 1
          omega

/-- **A line buffer is filled with what is left of the line**, or as much
of it as goes in. -/
theorem Ahead.fillLine (hT : T.FileLike content pos) {p : ℕ} (h : Ahead content pos st x p)
    (htype : st.buftype = .line) (hlevel : st.level = 0) (hne : content ≠ []) :
    ∃ st' x', fillBuffer T st x = .ok (if newline ∈ content.drop p ∨
        p + st.bufsize ≤ content.length then 0 else EIO.val, st', x') ∧
      Ahead content pos st' x' p ∧ SameBlock st st' ∧
      st'.level = (Lines.cutLine newline st.bufsize (content.drop p)).length := by
  have hp : pos x = p := by
    have hpos := h.pos_eq
    omega
  obtain ⟨st', x', hfill, hreads, ⟨htype', hsize⟩, hpos', hpeek⟩ :=
    h.reads.fill hT hne st.bufsize (Nat.zero_add _).symm (peek_eq_some (Nat.zero_le _))
  rw [hp, Nat.zero_add] at hfill hpeek
  rw [hp] at hpos'
  refine ⟨{ st' with level := (Lines.cutLine newline st.bufsize (content.drop p)).length,
                     cur := 0 }, x', ?_, ⟨⟨hreads.canRead, hreads.canSeek, hreads.dirty,
      hreads.err, hreads.pos_le, hreads.eof⟩, ?_, ?_, hpos', ?_⟩, ⟨htype', hsize⟩, rfl⟩
  · simp only [fillBuffer, htype, hfill, ok_bind]
  · exact htype'.trans_ne h.buftype
  · exact h.bufsize_pos.trans_eq hsize.symm
  · dsimp only
    rw [hpeek, List.take_zero, List.nil_append, Lines.take_length_cutLine]

end Filling

/-! ## Serving from a line buffer -/

section Serving

variable {content : Bytes} {bufsize p level size : ℕ}

/-- There is something to fill the buffer with. -/
theorem LineServes.fills (h : LineServes content bufsize p 0 size) (hsize : 0 < size) :
    newline ∈ content.drop p ∨ p + bufsize ≤ content.length := by
  obtain ⟨hlt, -, hlast⟩ := h
  rcases hlast (by omega) with hmem | hle
  · rw [lastFill, Nat.add_zero, ← List.drop_drop] at hmem
    exact Or.inl (List.mem_of_mem_drop hmem)
  · rw [lastFill] at hle
    exact Or.inr (by omega)

/-- What is read of a line is served by the first fill, or the fill is a
whole block and the last one stays where it was. -/
theorem LineServes.filled (h : LineServes content bufsize p 0 size) (hpos : 0 < bufsize)
    (hsize : 0 < size) :
    0 < (Lines.cutLine newline bufsize (content.drop p)).length ∧
      LineServes content bufsize p
        (Lines.cutLine newline bufsize (content.drop p)).length size := by
  obtain ⟨hlt, hnl, hlast⟩ := h
  have hle := Lines.length_cutLine_le newline bufsize (content.drop p)
  have hrest : (content.drop p).length = content.length - p := List.length_drop
  generalize hm : min size (content.length - p) = m at hnl hlast
  have hge : min m bufsize ≤ (Lines.cutLine newline bufsize (content.drop p)).length := by
    refine Lines.le_length_cutLine (fun hmem => hnl ?_) (by omega) (by omega)
    exact List.take_subset_take_left _ (by omega) hmem
  generalize (Lines.cutLine newline bufsize (content.drop p)).length = k at hle hge ⊢
  refine ⟨by omega, hlt, ?_, fun hk => ?_⟩
  · rw [hm]
    exact hnl
  · rw [hm] at hk ⊢
    obtain rfl : k = bufsize := by omega
    have hsame : lastFill k p k m = lastFill k p 0 m := by
      have hdiv := Nat.div_eq_sub_div hpos (show k ≤ m - 1 by omega)
      rw [lastFill, lastFill, Nat.sub_zero, hdiv, Nat.succ_mul]
      omega
    rw [hsame]
    exact hlast (by omega)

/-- After a buffer that was not enough the file is at its end, or the rest
is served by the fills that follow. -/
theorem LineServes.next (h : LineServes content bufsize p level size) (hlevel : 0 < level)
    (hsize : level < size) (hle : p + level ≤ content.length) :
    p + level = content.length ∨ ((content.drop p).take level).getLast? ≠ some newline ∧
      LineServes content bufsize (p + level) 0 (size - level) := by
  obtain ⟨hlt, hnl, hlast⟩ := h
  generalize hm : min size (content.length - p) = m at hnl hlast
  by_cases hk : level < m
  · have hm' : min (size - level) (content.length - (p + level)) = m - level := by omega
    refine Or.inr ⟨fun hmem => hnl ?_, by omega, fun hmem => hnl ?_, fun _ => ?_⟩
    · exact List.take_subset_take_left _ (by omega) (List.mem_of_getLast? hmem)
    · rw [hm', show m - level - 1 = m - 1 - level by omega, ← List.drop_drop,
        ← List.drop_take] at hmem
      exact List.mem_of_mem_drop hmem
    · have hsame : lastFill bufsize (p + level) 0 (m - level) = lastFill bufsize p level m := by
        rw [lastFill, lastFill, Nat.sub_zero, Nat.add_zero,
          show m - level - 1 = m - 1 - level by omega]
      rw [hm', hsame]
      exact hlast hk
  · exact Or.inl (by omega)

end Serving

/-! ## Reading through a buffer -/

section Buffered

variable {T : Transport σ} {content : Bytes} {pos : σ → ℕ} {st st' : DicoStream} {x x' : σ}
  {p size : ℕ} {acc : Bytes}

/-- The loop of a read can go on: with something to read in a line buffer,
or at the end of the file with something read. -/
def Serves (content : Bytes) (st : DicoStream) (p size : ℕ) (acc : Bytes) : Prop :=
  st.buftype = .line →
    LineServes content st.bufsize p st.level size ∨ p = content.length ∧ acc ≠ []

/-- A buffer that is not empty stays as it is, and an empty one is filled;
or the file is at its end. -/
theorem Ahead.refill (hT : T.FileLike content pos) (h : Ahead content pos st x p)
    (hne : content ≠ []) (hsize : 0 < size) (hserves : Serves content st p size acc) :
    ∃ rc st' x', DicoStream.refill T st x = .ok (rc, st', x') ∧ Ahead content pos st' x' p ∧
      SameBlock st st' ∧
      (p = content.length ∧ (rc ≠ 0 → acc ≠ []) ∨
        rc = 0 ∧ 0 < st'.level ∧ Serves content st' p size acc) := by
  unfold DicoStream.refill
  split_ifs with hlevel
  · have hle := h.reads.pos_le
    have hpos := h.pos_eq
    cases htype : st.buftype with
    | none => exact absurd htype h.buftype
    | full =>
      obtain ⟨st', x', hfill, hahead, hsame, hlevel'⟩ := h.fillFull hT htype hlevel hne
      refine ⟨0, st', x', hfill, hahead, hsame, ?_⟩
      by_cases hend : p = content.length
      · exact Or.inl ⟨hend, fun hrc => absurd rfl hrc⟩
      · have hbufsize := h.bufsize_pos
        refine Or.inr ⟨rfl, by omega, fun hline => ?_⟩
        rw [hsame.1, htype] at hline
        cases hline
    | line =>
      obtain ⟨st', x', hfill, hahead, hsame, hlevel'⟩ := h.fillLine hT htype hlevel hne
      rcases hserves htype with hserves | hend
      · rw [hlevel] at hserves
        rw [if_pos (hserves.fills hsize)] at hfill
        obtain ⟨hpos', hserves'⟩ := hserves.filled h.bufsize_pos hsize
        refine ⟨0, st', x', hfill, hahead, hsame, Or.inr ⟨rfl, by omega, fun _ => Or.inl ?_⟩⟩
        rw [hsame.2, hlevel']
        exact hserves'
      · exact ⟨_, st', x', hfill, hahead, hsame, Or.inl ⟨hend.1, fun _ => hend.2⟩⟩
  · exact ⟨0, st, x, rfl, h, ⟨rfl, rfl⟩, Or.inr ⟨rfl, by omega, hserves⟩⟩

/-- What is copied from the buffer follows in the file. -/
theorem Ahead.copied (h : Ahead content pos st x p) {n : ℕ} (hn : n ≤ st.level) :
    peek st.buffer st.cur n = some ((content.drop p).take n) ∧
      Ahead content pos (st.advanceBuffer n) x (p + n) := by
  have hpart := @peek_part _ _ _ _ 0 n h.buffer (by omega)
  have hrest := peek_drop h.buffer hn
  rw [List.drop_zero, List.take_take, Nat.min_eq_left hn] at hpart
  rw [List.drop_take, List.drop_drop] at hrest
  have hpos := h.pos_eq
  refine ⟨hpart, ⟨h.reads.canRead, h.reads.canSeek, h.reads.dirty, h.reads.err, h.reads.pos_le,
    h.reads.eof⟩, h.buftype, h.bufsize_pos, ?_, hrest⟩
  dsimp only [advanceBuffer]
  omega

/-- A line buffer that was not enough ended in a newline only at the end of
the file, and the loop can go on after it. -/
theorem Ahead.emptied (h : Ahead content pos st x p) (hserves : Serves content st p size acc)
    (hlevel : 0 < st.level) (hlt : st.level < size) :
    Serves content (st.advanceBuffer st.level) (p + st.level) (size - st.level)
        (acc ++ (content.drop p).take st.level) ∧
      (st.buftype = .line → ((content.drop p).take st.level).getLast? = some newline →
        p + st.level = content.length) := by
  have hle := h.reads.pos_le
  have hpos := h.pos_eq
  have hnext : st.buftype = .line → p + st.level = content.length ∨
      ((content.drop p).take st.level).getLast? ≠ some newline ∧
        LineServes content st.bufsize (p + st.level) 0 (size - st.level) := by
    intro hline
    rcases hserves hline with hserves | hend
    · exact hserves.next hlevel hlt (by omega)
    · omega
  constructor
  · intro hline
    rcases hnext hline with hend | ⟨-, hserves'⟩
    · refine Or.inr ⟨hend, fun hnil => ?_⟩
      have hlen := @length_piece content p st.level
      rw [(List.append_eq_nil_iff.1 hnil).2, List.length_nil] at hlen
      omega
    · refine Or.inl ?_
      dsimp only [advanceBuffer]
      rw [Nat.sub_self]
      exact hserves'
  · intro hline hlast
    rcases hnext hline with hend | ⟨hnot, -⟩
    · exact hend
    · exact absurd hlast hnot

/-- **The loop of a read hands out what follows in the file.** -/
theorem Ahead.readLoop (hT : T.FileLike content pos) (fuel : ℕ) (h : Ahead content pos st x p)
    (hfuel : size ≤ fuel) (hne : 0 < size → content ≠ [])
    (hserves : 0 < size → Serves content st p size acc) :
    ∃ st' x', readBuffered T fuel size acc st x =
        .ok (false, acc ++ (content.drop p).take size, st', x') ∧
      Ahead content pos st' x' (p + ((content.drop p).take size).length) := by
  induction fuel generalizing st x p size acc with
  | zero =>
    obtain rfl : size = 0 := by omega
    refine ⟨st, x, ?_, h⟩
    rw [readBuffered, List.take_zero, List.append_nil]
  | succ fuel ih =>
    by_cases hzero : size = 0
    · subst hzero
      refine ⟨st, x, ?_, h⟩
      rw [readBuffered, if_pos rfl, List.take_zero, List.append_nil]
    have hpos : 0 < size := by omega
    obtain ⟨rc, st₁, x₁, hrefill, h₁, hsame, hcase⟩ := h.refill hT (hne hpos) hpos (hserves hpos)
    have hle := h₁.reads.pos_le
    have hpos₁ := h₁.pos_eq
    rw [readBuffered, if_neg hzero, hrefill, ok_bind]
    dsimp only
    rcases hcase with ⟨hend, hacc⟩ | ⟨rfl, hlevel, hserves₁⟩
    · -- at the end of the file the fill fails, or it brings nothing
      have hnil : (content.drop p).take size = [] := by
        rw [List.drop_eq_nil_of_le hend.ge, List.take_nil]
      refine ⟨st₁, x₁, ?_, by rw [hnil]; exact h₁⟩
      rw [hnil, List.append_nil]
      split_ifs with hrc hlevel
      · rw [beq_eq_false_iff_ne.2 (fun hlen => hacc hrc (List.length_eq_zero_iff.1 hlen))]
      · rfl
      · omega
    · rw [if_neg (by omega), if_neg (by omega)]
      have hlen := @length_piece content p size
      by_cases hlt : st₁.level < size
      · obtain ⟨hpeek, hahead⟩ := h₁.copied (le_refl st₁.level)
        obtain ⟨hserves₂, hlast⟩ := h₁.emptied hserves₁ hlevel hlt
        have hlevel' := @length_piece content p st₁.level
        rw [Nat.min_eq_right hlt.le, hpeek]
        dsimp only
        split_ifs with hline
        · have hend := hlast hline.1 hline.2
          have htake : (content.drop p).take size = (content.drop p).take st₁.level := by
            rw [List.take_of_length_le (by rw [List.length_drop]; omega),
              List.take_of_length_le (by rw [List.length_drop]; omega)]
          refine ⟨_, _, by rw [htake], ?_⟩
          rw [htake, hlevel', Nat.min_eq_left (by omega)]
          exact hahead
        · have hsplit : (content.drop p).take st₁.level ++
              (content.drop (p + st₁.level)).take (size - st₁.level) =
                (content.drop p).take size := by
            rw [← List.drop_drop, ← List.take_add, Nat.add_sub_cancel' hlt.le]
          obtain ⟨st', x', hread, h'⟩ := ih hahead (by omega) (fun _ => hne hpos) fun _ => hserves₂
          rw [List.append_assoc, hsplit] at hread
          refine ⟨st', x', hread, ?_⟩
          rw [← hsplit, List.length_append, hlevel', Nat.min_eq_left (by omega), ← Nat.add_assoc]
          exact h'
      · obtain ⟨hpeek, hahead⟩ := h₁.copied (Nat.not_lt.1 hlt)
        rw [Nat.min_eq_left (Nat.not_lt.1 hlt), hpeek]
        refine ⟨st₁.advanceBuffer size, x₁, ?_, ?_⟩
        · -- there is nothing left to read, newline or not
          dsimp only
          rw [Nat.sub_self]
          split_ifs with hline
          · rfl
          · cases fuel with
            | zero => rfl
            | succ fuel => rw [readBuffered, if_pos rfl]
        · rw [hlen, Nat.min_eq_left (by omega)]
          exact hahead

/-- **A read through a buffer.** -/
theorem Ahead.read (hT : T.FileLike content pos) (h : Ahead content pos st x p) {pread : Bool}
    (hserved : (FileOp.read size pread).Served content st p) :
    ∃ st' x', st.read T x size pread = .ok ⟨0, (content.drop p).take size,
        if pread then some ((content.drop p).take size).length else none, st', x'⟩ ∧
      Ahead content pos st' x' (p + ((content.drop p).take size).length) := by
  obtain ⟨hcount, hserved⟩ := hserved
  obtain ⟨st', x', hread, h'⟩ := h.readLoop hT size le_rfl (fun hpos => (hserved hpos).1)
    fun hpos hline => Or.inl ((hserved hpos).2 hline)
  refine ⟨st', x', ?_, h'⟩
  rw [List.nil_append] at hread
  simp only [DicoStream.read, if_neg h.buftype, h.reads.err, Bool.false_eq_true, if_false, hread,
    ok_bind]
  split_ifs with hpread hshort
  · rfl
  · have hlen := @length_piece content p size
    have hle := (hcount (Bool.eq_false_iff.2 hpread)).2
    omega
  · rfl

end Buffered

/-! ## Seeking -/

section Seeking

variable {T : Transport σ} {content : Bytes} {pos : σ → ℕ} {st : DicoStream} {x : σ} (L : Limits)

/-- Flushing an empty buffer moves nothing. -/
theorem Reads.flush (hT : T.FileLike content pos) (h : Reads content pos st x)
    (hlevel : st.level = 0) :
    ∃ x', DicoStream.flush L T st x =
        .ok (0, { st with dirty := false, level := 0, cur := 0 }, x') ∧ pos x' = pos x := by
  obtain ⟨depth, hdepth⟩ : ∃ depth, L.stack = depth + 1 :=
    ⟨L.stack - 1, by have := L.stack_pos; omega⟩
  have hbuffer : flushBuffer T L.stack true st x =
      .ok (0, { st with dirty := false, level := 0, cur := 0 }, x) := by
    rw [hdepth, flushBuffer, if_neg (by rw [h.dirty]; exact Bool.false_ne_true), settle,
      if_neg (not_not.2 hlevel), ok_bind]
  simp only [DicoStream.flush, hbuffer, ok_bind, ne_eq, not_true_eq_false, if_false,
    transportFlush]
  cases hfl : T.flush with
  | none => exact ⟨x, rfl, rfl⟩
  | some fl =>
    obtain ⟨hrc, hpos⟩ := hT.flush fl hfl x
    refine ⟨(fl x).2, ?_, hpos⟩
    dsimp only
    rw [hrc]

/-- What a seek leaves of a stream whose buffer was empty. -/
def moved (st : DicoStream) : DicoStream :=
  { st with dirty := false, level := 0, cur := 0, eof := false }

/-- **A seek with an empty buffer** that does not go back from the end to a
place in it. -/
theorem Reads.seek (hT : T.FileLike content pos) (h : Reads content pos st x)
    {offset : ℤ} {whence : Whence} {p : ℕ}
    (hserved : (FileOp.seek offset whence).Served content st p)
    (hrange : SeekInRange content (pos x) offset whence) :
    ∃ x', st.seek L T x offset whence =
        .ok (seekTarget content (pos x) offset whence, st.moved, x') ∧
      Reads content pos st.moved x' ∧ (pos x' : ℤ) = seekTarget content (pos x) offset whence := by
  obtain ⟨hlevel, hnot⟩ := hserved
  obtain ⟨sk, hsk, hseek⟩ := hT.seek
  obtain ⟨x₁, hflush, hpos₁⟩ := h.flush L hT hlevel
  rw [← hpos₁] at hrange ⊢
  obtain ⟨x₂, hcall, hpos₂⟩ := hseek x₁ offset whence hrange
  have hbranch : ¬ (whence = .ofEnd ∧ 0 ≤ (st.cur : ℤ) + offset ∧
      (st.cur : ℤ) + offset < st.origLevel) := by
    rintro ⟨hwhence, hge, hlt⟩
    rw [origLevel, hlevel] at hlt
    exact hnot ⟨hwhence, by omega, by omega⟩
  refine ⟨x₂, ?_, ⟨h.canRead, h.canSeek, rfl, h.err, ?_, fun heof => by cases heof⟩, hpos₂⟩
  · simp only [DicoStream.seek, seekWith, h.err, Bool.false_eq_true, if_false, hsk, h.canSeek,
      Bool.not_true, if_neg hbranch, hflush, ok_bind, ne_eq, not_true_eq_false, hcall, moved]
  · have hle := hrange.2
    omega

end Seeking

/-! ## The two streams together -/

section Together

variable {T : Transport σ} {content : Bytes} {pos : σ → ℕ} {st : DicoStream} {x : σ} (L : Limits)

/-- A stream without a buffer. -/
structure Plain (content : Bytes) (pos : σ → ℕ) (st : DicoStream) (x : σ) : Prop where
  reads : Reads content pos st x
  buftype : st.buftype = .none
  level : st.level = 0
  cur : st.cur = 0

/-- A read without a buffer. -/
theorem Plain.read (hT : T.FileLike content pos) (h : Plain content pos st x)
    {buffered : DicoStream} {size : ℕ} {pread : Bool}
    (hserved : (FileOp.read size pread).Served content buffered (pos x)) :
    ∃ st' x', st.read T x size pread = .ok ⟨0, (content.drop (pos x)).take size,
        if pread then some ((content.drop (pos x)).take size).length else none, st', x'⟩ ∧
      Plain content pos st' x' ∧
      pos x' = pos x + ((content.drop (pos x)).take size).length := by
  obtain ⟨hcount, hserved⟩ := hserved
  rw [DicoStream.read, if_pos h.buftype]
  cases pread with
  | true =>
    obtain ⟨st', x', hread, ⟨eof, bytesIn, lastErr, rfl⟩, hpos, hreads⟩ :=
      h.reads.count hT fun hsize => (hserved hsize).1
    exact ⟨_, x', hread, ⟨hreads, h.buftype, h.level, h.cur⟩, hpos⟩
  | false =>
    obtain ⟨hsize, hle⟩ := hcount rfl
    obtain ⟨st', x', hread, ⟨eof, bytesIn, lastErr, rfl⟩, hpos, hreads⟩ :=
      h.reads.whole hT hsize hle
    have hlen := @length_piece content (pos x) size
    exact ⟨_, x', hread, ⟨hreads, h.buftype, h.level, h.cur⟩, by omega⟩

/-- They stand at one place, and were told the same. -/
structure Together (content : Bytes) (pos : σ → ℕ) (t : Twins σ) : Prop where
  buffered : Ahead content pos t.buffered.1 t.buffered.2 (pos t.plain.2)
  plain : Plain content pos t.plain.1 t.plain.2
  alike : t.Alike

/-- So they do when they are opened. -/
theorem together_opened {type : BufferType} {block : Bytes} (htype : type ≠ .none)
    (hblock : 0 < block.length) (hx : pos x ≤ content.length) :
    Together content pos (Twins.opened type block x) where
  buffered := ⟨⟨rfl, rfl, rfl, rfl, hx, fun heof => by cases heof⟩, htype, hblock, rfl,
    peek_eq_some (Nat.zero_le _)⟩
  plain := ⟨⟨rfl, rfl, rfl, rfl, hx, fun heof => by cases heof⟩, rfl, rfl, rfl⟩
  alike o ho := by cases ho

/-- One more call of which they are told the same, and after which they
stand at one place. -/
theorem Together.told {op : FileOp} {t : Twins σ} {o : Outcome} {b b' : DicoStream × σ}
    (h : Together content pos t) (hbuffered : op.apply L T t.buffered = .ok (o, b))
    (hplain : op.apply L T t.plain = .ok (o, b')) (hahead : Ahead content pos b.1 b.2 (pos b'.2))
    (hplain' : Plain content pos b'.1 b'.2) :
    ∃ t', Twins.step L T op t = .ok t' ∧ Together content pos t' := by
  refine ⟨⟨b, b', t.outcomes ++ [(o, o)]⟩, ?_, hahead, hplain', fun o' ho' => ?_⟩
  · simp only [Twins.step, hbuffered, hplain, ok_bind]
  · rcases List.mem_append.1 ho' with ho' | ho'
    · exact h.alike o' ho'
    · rw [List.mem_singleton.1 ho']

/-- **One call.** -/
theorem Together.step (hT : T.FileLike content pos) {op : FileOp} {t : Twins σ}
    (h : Together content pos t) (hguard : t.Guard content pos op) :
    ∃ t', Twins.step L T op t = .ok t' ∧ Together content pos t' := by
  obtain ⟨hrange, hserved⟩ := hguard
  cases op with
  | read size pread =>
    obtain ⟨st₁, x₁, hread₁, hahead⟩ := h.buffered.read hT hserved
    obtain ⟨st₂, x₂, hread₂, hplain, hpos⟩ := h.plain.read hT hserved
    exact h.told L (FileOp.apply_read L hread₁) (FileOp.apply_read L hread₂)
      (by rw [hpos]; exact hahead) hplain
  | seek offset whence =>
    have hpos : pos t.buffered.2 = pos t.plain.2 := by
      rw [h.buffered.pos_eq, hserved.1, Nat.add_zero]
    have hserved₂ : (FileOp.seek offset whence).Served content t.plain.1 (pos t.plain.2) := by
      refine ⟨h.plain.level, fun hback => ?_⟩
      rw [h.plain.cur] at hback
      omega
    obtain ⟨x₁, hseek₁, hreads₁, hpos₁⟩ :=
      h.buffered.reads.seek L hT hserved (by rw [hpos]; exact hrange)
    obtain ⟨x₂, hseek₂, hreads₂, hpos₂⟩ := h.plain.reads.seek L hT hserved₂ hrange
    rw [hpos] at hseek₁ hpos₁
    refine h.told L (FileOp.apply_seek hseek₁) (FileOp.apply_seek hseek₂)
      ⟨hreads₁, h.buffered.buftype, h.buffered.bufsize_pos, ?_, peek_eq_some (Nat.zero_le _)⟩
      ⟨hreads₂, h.plain.buftype, rfl, rfl⟩
    dsimp only [moved]
    omega

/-- **As long as every call is guarded, the two streams return the same.** -/
theorem alike_of_guarded (hT : T.FileLike content pos) {type : BufferType} (htype : type ≠ .none)
    {block : Bytes} (hblock : 0 < block.length) (hx : pos x ≤ content.length) {ops : List FileOp}
    (hguarded : Run.Guarded (Twins.step L T) (Twins.Guard content pos) ops
      (Twins.opened type block x)) :
    Run.Safe (Twins.step L T) Twins.Alike ops (Twins.opened type block x) :=
  (Run.safe_of_guarded (fun _ _ h hguard => h.step L hT hguard)
    (together_opened htype hblock hx) hguarded).imp fun _ h => h.alike

/-- Six letters through a buffer of two: read, moved, and read again. -/
theorem alike_of_guarded_letters :
    Run.Safe (Twins.step ⟨1, 0, Nat.one_pos⟩ (mapfile [97, 98, 99, 100, 101, 102])) Twins.Alike
      [.read 2 true, .seek 3 .set, .read 2 false, .seek (-1) .cur, .seek (-3) .ofEnd,
        .read 9 true, .read 1 true]
      (Twins.opened .full [0, 0] 0) :=
  alike_of_guarded _ (mapfile_fileLike _) (by decide) (by decide) (Nat.zero_le _)
    (by decide +kernel)

/-- **But not where something was read ahead.** Of three letters one is
read; to move by nothing then tells the one caller where the transport
is. -/
theorem not_forall_alike :
    ¬ ∀ (L : Limits) (content : Bytes) (type : BufferType) (block : Bytes) (ops : List FileOp),
      type ≠ .none → 0 < block.length →
      Run.Guarded (Twins.step L (mapfile content))
        (fun op t => op.InRange content t.plain.2) ops (Twins.opened type block 0) →
      Run.Safe (Twins.step L (mapfile content)) Twins.Alike ops (Twins.opened type block 0) := by
  intro h
  obtain ⟨t, hrun, halike⟩ := h ⟨1, 0, Nat.one_pos⟩ [97, 98, 99] .full [0, 0, 0, 0]
    [.read 1 true, .seek 0 .cur] (by decide) (by decide) (by decide +kernel) _ List.prefix_rfl
  have hout : (Run.run (Twins.step ⟨1, 0, Nat.one_pos⟩ (mapfile [97, 98, 99]))
      [.read 1 true, .seek 0 .cur] (Twins.opened .full [0, 0, 0, 0] 0)).toOption.map
        Twins.outcomes =
      some [(.read 0 [97] (some 1), .read 0 [97] (some 1)), (.seek 3, .seek 1)] := by
    decide +kernel
  rw [hrun] at hout
  have hmem : (Outcome.seek 3, Outcome.seek 1) ∈ t.outcomes := by
    rw [Option.some.inj hout]
    exact List.mem_cons_of_mem _ List.mem_cons_self
  cases halike _ hmem

end Together

end DicoStream

end Dico
