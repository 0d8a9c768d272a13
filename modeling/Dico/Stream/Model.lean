import Dico.Common.Memory
import Dico.Common.Run
import Mathlib.Data.Int.Notation
/-!
# The dico stream

The buffered stream of `lib/stream.c`, over a transport given by its
callbacks. One block, one cursor and one level serve the read-ahead and
the write-behind alike. Positions inside the block are offsets from its
start, so `cur` is `cur - buffer` of the source and `bufsize` is the
length of the block.

Every access to the block goes through `peek` and `poke`. A function
that makes one outside the block, or calls `abort`, or runs out of stack
or of loop budget, has a `Fault` and no result.
-/

namespace Dico

open Memory

/-- `enum dico_buffer_type`. -/
inductive BufferType
  | none
  | line
  | full
  deriving DecidableEq, Repr

/-- A nonzero error code. -/
abbrev Errno := { n : ℕ // n ≠ 0 }

/-- `EIO`. -/
def EIO : Errno := ⟨5, by decide⟩
/-- `ENOMEM`. -/
def ENOMEM : Errno := ⟨12, by decide⟩
/-- `EACCES`. -/
def EACCES : Errno := ⟨13, by decide⟩
/-- `ENOSYS`. -/
def ENOSYS : Errno := ⟨38, by decide⟩
/-- `EOVERFLOW`. -/
def EOVERFLOW : Errno := ⟨75, by decide⟩

/-- The newline byte. -/
def newline : UInt8 := 10

/-- What a transport's `read` did: stored bytes and succeeded, or failed,
with or without having stored some bytes and their count first. -/
inductive ReadReply
  | ok (data : Bytes)
  | fail (rc : Errno) (stored : Option Bytes)

/-- What a transport's `write` did: reported a number of bytes written, or
failed. -/
inductive WriteReply
  | ok (n : ℕ)
  | fail (rc : Errno)

/-- What a transport's `seek` did: moved to a position, or failed. -/
inductive SeekReply
  | ok (pos : ℤ)
  | fail (rc : Errno)

/-- `DICO_SEEK_SET`, `DICO_SEEK_CUR` and `DICO_SEEK_END`. -/
inductive Whence
  | set
  | cur
  | ofEnd
  deriving DecidableEq, Repr

/-- The transport of a stream: the callbacks it was given, each possibly
`NULL`, over the transport's own state. Nothing is asked of what they
answer. -/
structure Transport (σ : Type) where
  read : Option (σ → ℕ → ReadReply × σ)
  write : Option (σ → Bytes → WriteReply × σ)
  flush : Option (σ → ℕ × σ)
  seek : Option (σ → ℤ → Whence → SeekReply × σ)

/-- What the process has: calls that may be open at once, and the largest
block `realloc` grants. -/
structure Limits where
  stack : ℕ
  mem : ℕ
  stack_pos : 0 < stack

/-- `struct dico_stream`, its callbacks apart. -/
structure DicoStream where
  buftype : BufferType
  buffer : Bytes
  level : ℕ
  cur : ℕ
  /-- `DICO_STREAM_READ`. -/
  canRead : Bool
  /-- `DICO_STREAM_WRITE`. -/
  canWrite : Bool
  /-- `DICO_STREAM_SEEK`. -/
  canSeek : Bool
  /-- `_STR_DIRTY`. -/
  dirty : Bool
  /-- `_STR_ERR`. -/
  err : Bool
  /-- `_STR_EOF`. -/
  eof : Bool
  bytesIn : ℕ
  bytesOut : ℕ
  lastErr : ℕ
  deriving DecidableEq, Repr

namespace DicoStream

variable {σ : Type}

/-- The size of the block. -/
def bufsize (st : DicoStream) : ℕ := st.buffer.length

/-- `_stream_seterror`, whose value is the code it is given. -/
def seterror (st : DicoStream) (code : ℕ) (perm : Bool) : DicoStream :=
  { st with lastErr := code, err := st.err || perm }

/-- `dico_stream_create`. -/
def create (canRead canWrite canSeek : Bool) : DicoStream where
  buftype := .none
  buffer := []
  level := 0
  cur := 0
  canRead := canRead
  canWrite := canWrite
  canSeek := canSeek
  dirty := false
  err := false
  eof := false
  bytesIn := 0
  bytesOut := 0
  lastErr := 0

/-- `_stream_advance_buffer`. -/
def advanceBuffer (st : DicoStream) (n : ℕ) : DicoStream :=
  { st with cur := st.cur + n, level := st.level - n }

/-- `_stream_orig_level`. -/
def origLevel (st : DicoStream) : ℕ := st.level + st.cur

/-- `BUFFER_FULL_P`. -/
def bufferFull (st : DicoStream) : Bool := st.cur + st.level == st.bufsize

/-! ## Unbuffered input and output -/

/-- The loop of `dico_stream_read_unbuffered` for a caller that wants the
whole size: the code the transport failed with, the bytes stored, and
whether it reported the end of input. Each round stores a byte at least,
so `size` rounds are enough. -/
def readLoop (rd : σ → ℕ → ReadReply × σ) :
    ℕ → ℕ → Bytes → σ → Except Fault (ℕ × Bytes × Bool × σ)
  | 0, _, acc, x => .ok (0, acc, false, x)
  | fuel + 1, size, acc, x =>
    if size = 0 then .ok (0, acc, false, x)
    else match rd x size with
      | (.fail rc _, x') => .ok (rc.val, acc, false, x')
      | (.ok data, x') =>
        -- more bytes than asked for have gone over the end of the caller's block
        if size < data.length then .error .bounds
        else if data.length = 0 then .ok (0, acc, true, x')
        else readLoop rd fuel (size - data.length) (acc ++ data) x'

/-- What `dico_stream_read_unbuffered` leaves behind: its value, the bytes
it stored, and the count it stored in `*pread`, if it did. -/
structure ReadResult (σ : Type) where
  rc : ℕ
  data : Bytes
  pread : Option ℕ
  st : DicoStream
  dev : σ

/-- `dico_stream_read_unbuffered`; `pread` tells whether the caller passed
a place for the count. -/
def readUnbuffered (T : Transport σ) (st : DicoStream) (x : σ) (size : ℕ) (pread : Bool) :
    Except Fault (ReadResult σ) :=
  match T.read with
  | none => .ok ⟨ENOSYS.val, [], none, st.seterror ENOSYS.val false, x⟩
  | some rd =>
    if !st.canRead then .ok ⟨EACCES.val, [], none, st.seterror EACCES.val true, x⟩
    else if st.err then .ok ⟨st.lastErr, [], none, st, x⟩
    else if st.eof || size == 0 then
      if pread then .ok ⟨0, [], some 0, st, x⟩
      else .ok ⟨ EIO.val, [], none, st.seterror EIO.val false, x⟩
    else if pread then
      match rd x size with
      | (.ok data, x') =>
        if size < data.length then .error .bounds
        else .ok ⟨0, data, some data.length,
          { st with eof := st.eof || data.length == 0,
                    bytesIn := st.bytesIn + data.length, lastErr := 0 }, x'⟩
      | (.fail rc stored, x') =>
        if size < (stored.getD []).length then .error .bounds
        else .ok ⟨rc.val, stored.getD [], stored.map List.length, st.seterror rc.val true, x'⟩
    else do
      let (rc, data, eof, x') ← readLoop rd size size [] x
      let st' := { st with eof := st.eof || eof, bytesIn := st.bytesIn + data.length }
      -- an error of the transport is reported as `EIO` too, and does not stick
      if data.length < size then .ok ⟨ EIO.val, data, none, st'.seterror EIO.val false, x'⟩
      else .ok ⟨rc, data, none, st'.seterror rc (rc != 0), x'⟩

/-- The loop of `dico_stream_write_unbuffered`: the code, the number of
bytes the transport took, and its state. -/
def writeLoop (wr : σ → Bytes → WriteReply × σ) :
    ℕ → Bytes → ℕ → σ → Except Fault (ℕ × ℕ × σ)
  | 0, _, out, x => .ok (0, out, x)
  | fuel + 1, buf, out, x =>
    if buf.length = 0 then .ok (0, out, x)
    else match wr x buf with
      | (.fail rc, x') => .ok (rc.val, out, x')
      | (.ok n, x') =>
        if n = 0 then .ok ( EIO.val, out, x')
        -- the remaining size wraps around, and the next call reads past the block
        else if buf.length < n then .error .bounds
        else writeLoop wr fuel (buf.drop n) (out + n) x'

/-- `dico_stream_write_unbuffered` for a caller that wants everything
written. -/
def writeUnbuffered (T : Transport σ) (st : DicoStream) (x : σ) (buf : Bytes) :
    Except Fault (ℕ × DicoStream × σ) :=
  match T.write with
  | none => .ok (ENOSYS.val, st.seterror ENOSYS.val false, x)
  | some wr =>
    if !st.canWrite then .ok (EACCES.val, st.seterror EACCES.val true, x)
    else if st.err then .ok (st.lastErr, st, x)
    else if buf.length = 0 then .ok (0, st, x)
    else do
      let (rc, out, x') ← writeLoop wr buf.length buf 0 x
      let st' := { st with bytesOut := st.bytesOut + out }
      .ok (rc, st'.seterror rc (rc != 0), x')

/-! ## Filling the buffer -/

/-- The local variable `c` of a caller that reads one byte; a byte that was
not stored reads as zero. -/
def charRead (r : ReadResult σ) : UInt8 := r.data.headD 0

/-- The loop of `_stream_fill_buffer` for a line buffer: one byte a round,
until the block is full, a read fails or a newline came. -/
def fillLine (T : Transport σ) : ℕ → ℕ → DicoStream → σ → Except Fault (ℕ × ℕ × DicoStream × σ)
  | 0, n, st, x => .ok (0, n, st, x)
  | fuel + 1, n, st, x =>
    if n < st.bufsize then do
      let r ← readUnbuffered T st x 1 false
      if r.rc ≠ 0 then .ok (r.rc, n, r.st, r.dev)
      else
        let c := charRead r
        match poke r.st.buffer n [c] with
        | none => .error .bounds
        | some m =>
          let st' := { r.st with buffer := m }
          if c = newline then .ok (0, n + 1, st', r.dev)
          else fillLine T fuel (n + 1) st' r.dev
    else .ok (0, n, st, x)

/-- `_stream_fill_buffer`. -/
def fillBuffer (T : Transport σ) (st : DicoStream) (x : σ) : Except Fault (ℕ × DicoStream × σ) :=
  match st.buftype with
  | .none => .ok (0, st, x)
  | .full => do
    let r ← readUnbuffered T st x st.bufsize true
    match poke r.st.buffer 0 r.data with
    | none => .error .bounds
    | some m =>
      let st' := { r.st with buffer := m, level := r.pread.getD r.st.level }
      -- the early return leaves the cursor where it was
      if r.rc ≠ 0 then .ok (1, st', r.dev)
      else .ok (0, { st' with cur := 0 }, r.dev)
  | .line => do
    let (rc, n, st', x') ← fillLine T st.bufsize 0 st x
    .ok (rc, { st' with level := n, cur := 0 }, x')

/-! ## Flushing -/

/-- `_stream_buffer_full_p`, where the pending window is inside the block. -/
def bufferFullP (st : DicoStream) : Except Fault Bool :=
  match st.buftype with
  | .none => .ok false
  | .full => .ok st.bufferFull
  | .line =>
    if st.bufferFull then .ok true
    else match peek st.buffer st.cur st.level with
      | none => .error .bounds
      | some w => .ok (newline ∈ w)

/-- The loop of `_stream_flush_buffer` that writes out complete lines, one
call of the transport's stream each. -/
def flushLines (T : Transport σ) : ℕ → DicoStream → σ → Except Fault (ℕ × DicoStream × σ)
  | 0, st, x => .ok (0, st, x)
  | fuel + 1, st, x =>
    match peek st.buffer st.cur st.level with
    | none => .error .bounds
    | some w =>
      if newline ∈ w then do
        let size := w.idxOf newline + 1
        let (rc, st', x') ← writeUnbuffered T st x (w.take size)
        if rc ≠ 0 then .ok (rc, st', x')
        else flushLines T fuel (st'.advanceBuffer size) x'
      else .ok (0, st, x)

/-- Writing out all that is pending. -/
def flushPending (T : Transport σ) (st : DicoStream) (x : σ) : Except Fault (ℕ × DicoStream × σ) :=
  match peek st.buffer st.cur st.level with
  | none => .error .bounds
  | some w => do
    let (rc, st', x') ← writeUnbuffered T st x w
    if rc ≠ 0 then .ok (rc, st', x')
    else .ok (0, st'.advanceBuffer st'.level, x')

/-- The `switch` of `_stream_flush_buffer`. -/
def flushDirty (T : Transport σ) (all : Bool) (st : DicoStream) (x : σ) :
    Except Fault (ℕ × DicoStream × σ) :=
  match st.buftype with
  | .none => .error .abort
  | .full => do
    let (rc, st', x') ← flushPending T st x
    .ok (if rc ≠ 0 then 1 else 0, st', x')
  | .line =>
    if st.level = 0 then .ok (0, st, x)
    else do
      let (rc, st', x') ← flushLines T st.level st x
      if rc ≠ 0 then .ok (rc, st', x')
      else if (all && st'.level != 0) || st'.bufferFull then flushPending T st' x'
      else .ok (0, st', x')

/-- The end of `_stream_flush_buffer`: what is left moves to the front. -/
def settle (st : DicoStream) : Except Fault DicoStream :=
  if st.level ≠ 0 then
    if 0 < st.cur then
      match peek st.buffer st.cur st.level with
      | none => .error .bounds
      | some w => match poke st.buffer 0 w with
        | none => .error .bounds
        | some m => .ok { st with buffer := m, cur := 0 }
    else .ok { st with cur := 0 }
  else .ok { st with dirty := false, level := 0, cur := 0 }

/-- `dico_stream_seek`, given the flush it calls. -/
def seekWith (flush : DicoStream → σ → Except Fault (ℕ × DicoStream × σ)) (T : Transport σ)
    (st : DicoStream) (x : σ) (offset : ℤ) (whence : Whence) : Except Fault (ℤ × DicoStream × σ) :=
  if st.err then .ok (-1, st, x)
  else match T.seek with
    | none => .ok (-1, st.seterror ENOSYS.val false, x)
    | some sk =>
      if !st.canSeek then .ok (-1, st.seterror EACCES.val true, x)
      else if whence = .ofEnd ∧ 0 ≤ (st.cur : ℤ) + offset ∧
          (st.cur : ℤ) + offset < st.origLevel then
        match sk x offset whence with
        | (.fail rc, x') => .ok (-1, st.seterror rc.val true, x')
        | (.ok res, x') =>
          -- advancing by `offset - bpos` puts the cursor `offset` bytes from the block's start
          if offset < 0 then .error .bounds
          else
            let st' := { st with cur := offset.toNat, level := (st.origLevel - offset).toNat,
                                 eof := false }
            .ok (res - st'.level, st', x')
      else do
        let (rc, st', x') ← flush st x
        if rc ≠ 0 then .ok (-1, st', x')
        else match sk x' offset whence with
          | (.fail rc, x'') => .ok (-1, st'.seterror rc.val true, x'')
          | (.ok res, x'') => .ok (res, { st' with eof := false }, x'')

/-- The transport's own `flush`, where it has one. -/
def transportFlush (T : Transport σ) (st : DicoStream) (x : σ) : ℕ × DicoStream × σ :=
  match T.flush with
  | none => (0, st, x)
  | some fl => ((fl x).1, st, (fl x).2)

/-- Writing a dirty block back: on a stream opened for seeking, after
moving the transport back to where the block belongs. -/
def writeBack (flush : DicoStream → σ → Except Fault (ℕ × DicoStream × σ)) (T : Transport σ)
    (all : Bool) (st : DicoStream) (x : σ) : Except Fault (ℕ × DicoStream × σ) :=
  if st.canSeek then do
    let (pos, st', x') ← seekWith flush T st x (-(st.origLevel : ℤ)) .cur
    if pos < 0 then .ok (1, st', x') else flushDirty T all st' x'
  else flushDirty T all st x

/-- `_stream_flush_buffer`, with the number of its calls that may be open
at once: on a stream opened for seeking it calls `dico_stream_seek`,
which calls `dico_stream_flush`, which calls it again. -/
def flushBuffer (T : Transport σ) : ℕ → Bool → DicoStream → σ → Except Fault (ℕ × DicoStream × σ)
  | 0, _, _, _ => .error .stack
  | depth + 1, all, st, x =>
    if st.dirty then do
      let (rc, st', x') ← writeBack
        (fun st x => do
          let (rc, st', x') ← flushBuffer T depth true st x
          if rc ≠ 0 then .ok (1, st', x') else .ok (transportFlush T st' x'))
        T all st x
      if rc ≠ 0 then .ok (rc, st', x')
      else do
        let st'' ← st'.settle
        .ok (0, st'', x')
    else do
      let st' ← st.settle
      .ok (0, st', x)

/-- `dico_stream_flush`. -/
def flush (L : Limits) (T : Transport σ) (st : DicoStream) (x : σ) :
    Except Fault (ℕ × DicoStream × σ) := do
  let (rc, st', x') ← flushBuffer T L.stack true st x
  if rc ≠ 0 then .ok (1, st', x') else .ok (transportFlush T st' x')

/-- `dico_stream_seek`. -/
def seek (L : Limits) (T : Transport σ) (st : DicoStream) (x : σ) (offset : ℤ)
    (whence : Whence) : Except Fault (ℤ × DicoStream × σ) :=
  seekWith (flush L T) T st x offset whence

/-- A buffer about to be replaced is flushed first. -/
def dropBuffer (L : Limits) (T : Transport σ) (st : DicoStream) (x : σ) :
    Except Fault (ℕ × DicoStream × σ) :=
  if st.bufsize ≠ 0 then flush L T st x else .ok (0, st, x)

/-- `dico_stream_set_buffer`, given what `malloc` returned for the block. -/
def setBuffer (L : Limits) (T : Transport σ) (st : DicoStream) (x : σ) (type : BufferType)
    (block : Option Bytes) : Except Fault (ℕ × DicoStream × σ) := do
  let (_, st, x) ← dropBuffer L T st x
  match type, block with
  | .none, _ => .ok (0, { st with buftype := .none, buffer := [] }, x)
  | _, none =>
    .ok (ENOMEM.val, { st with buftype := .none, buffer := [] }.seterror ENOMEM.val true, x)
  | type, some m =>
    if m.length = 0 then .ok (0, { st with buftype := .none, buffer := [] }, x)
    else .ok (0, { st with buftype := type, buffer := m, cur := 0, level := 0 }, x)

/-! ## Buffered input -/

/-- An empty buffer is filled before the loop of `dico_stream_read` copies
from it. -/
def refill (T : Transport σ) (st : DicoStream) (x : σ) : Except Fault (ℕ × DicoStream × σ) :=
  if st.level = 0 then fillBuffer T st x else .ok (0, st, x)

/-- The loop of `dico_stream_read`: whether it was left through `return 1`,
and the bytes copied to the caller. Each round copies one byte at least. -/
def readBuffered (T : Transport σ) : ℕ → ℕ → Bytes → DicoStream → σ →
    Except Fault (Bool × Bytes × DicoStream × σ)
  | 0, _, acc, st, x => .ok (false, acc, st, x)
  | fuel + 1, size, acc, st, x =>
    if size = 0 then .ok (false, acc, st, x)
    else do
      let (rc, st, x) ← refill T st x
      if rc ≠ 0 then .ok (acc.length == 0, acc, st, x)
      else if st.level = 0 then .ok (false, acc, st, x)
      else
        let n := min size st.level
        match peek st.buffer st.cur n with
        | none => .error .bounds
        | some w =>
          let st := st.advanceBuffer n
          if st.buftype = .line ∧ w.getLast? = some newline then .ok (false, acc ++ w, st, x)
          else readBuffered T fuel (size - n) (acc ++ w) st x

/-- `dico_stream_read`. -/
def read (T : Transport σ) (st : DicoStream) (x : σ) (size : ℕ) (pread : Bool) :
    Except Fault (ReadResult σ) :=
  if st.buftype = .none then readUnbuffered T st x size pread
  else if st.err then .ok ⟨st.lastErr, [], none, st, x⟩
  else do
    let (failed, data, st, x) ← readBuffered T size size [] st x
    if failed then .ok ⟨1, data, none, st, x⟩
    else if pread then .ok ⟨0, data, some data.length, st, x⟩
    else if data.length < size then .ok ⟨ EIO.val, data, none, st.seterror EIO.val true, x⟩
    else .ok ⟨0, data, none, st, x⟩

/-- The largest block `dico_stream_getdelim` asks for: `SSIZE_MAX + 1`. -/
def neededMax : ℕ := 2 ^ 63

/-- The loop of `dico_stream_getdelim`; `n` is the size of the caller's
line block, which `realloc` grows as long as the process has memory. -/
def getdelimLoop (L : Limits) (T : Transport σ) (delim : UInt8) :
    ℕ → ℕ → Bytes → DicoStream → σ → Except Fault (ℕ × Bytes × ℕ × DicoStream × σ)
  | 0, _, _, _, _ => .error .loop
  | fuel + 1, n, acc, st, x => do
    let r ← read T st x 1 false
    if r.rc ≠ 0 then .ok (r.rc, acc, n, r.st, r.dev)
    else
      -- the line block grows before the byte is stored, to keep a place for the final `NUL`
      let needed := min neededMax (2 * n + 1)
      if n ≤ acc.length + 1 ∧ needed ≤ acc.length + 1 then
        .ok (EOVERFLOW.val, acc, n, r.st, r.dev)
      else if n ≤ acc.length + 1 ∧ L.mem < needed then
        .ok (ENOMEM.val, acc, n, r.st, r.dev)
      else
        let n := if n ≤ acc.length + 1 then needed else n
        let c := charRead r
        if c = delim then .ok (0, acc ++ [c], n, r.st, r.dev)
        else getdelimLoop L T delim fuel n (acc ++ [c]) r.st r.dev

/-- `dico_stream_getdelim`: its value, the line, and the size of the line
block it leaves. -/
def getdelim (L : Limits) (T : Transport σ) (st : DicoStream) (x : σ) (n : ℕ) (delim : UInt8) :
    Except Fault (ℕ × Bytes × ℕ × DicoStream × σ) :=
  if n = 0 then
    if L.mem < 120 then .ok (ENOMEM.val, [], 0, st, x)
    else getdelimLoop L T delim (max 120 L.mem + 2) 120 [] st x
  else getdelimLoop L T delim (max n L.mem + 2) n [] st x

/-- `dico_stream_getline`. -/
def getline (L : Limits) (T : Transport σ) (st : DicoStream) (x : σ) (n : ℕ) :
    Except Fault (ℕ × Bytes × ℕ × DicoStream × σ) :=
  getdelim L T st x n newline

/-! ## Buffered output -/

/-- A full buffer is flushed before the loop of `dico_stream_write` copies
to it. -/
def makeRoom (L : Limits) (T : Transport σ) (st : DicoStream) (x : σ) :
    Except Fault (ℕ × DicoStream × σ) := do
  let fullp ← st.bufferFullP
  if fullp then flushBuffer T L.stack false st x else .ok (0, st, x)

/-- The loop of `dico_stream_write`. A round copies a byte at least, or
finds a full block that is not marked dirty and marks it, and the next
round flushes it: two rounds a byte and one to leave are enough. -/
def writeBuffered (L : Limits) (T : Transport σ) : ℕ → Bytes → DicoStream → σ →
    Except Fault (ℕ × DicoStream × σ)
  | 0, _, _, _ => .error .loop
  | fuel + 1, buf, st, x => do
    let (rc, st, x) ← makeRoom L T st x
    if rc ≠ 0 then .ok (1, st, x)
    else if buf.length = 0 then .ok (0, st, x)
    else
      let n := min (st.bufsize - st.level) buf.length
      match poke st.buffer (st.cur + st.level) (buf.take n) with
      | none => .error .bounds
      | some m =>
        writeBuffered L T fuel (buf.drop n)
          { st with buffer := m, level := st.level + n, dirty := true } x

/-- `dico_stream_write`. -/
def write (L : Limits) (T : Transport σ) (st : DicoStream) (x : σ) (buf : Bytes) :
    Except Fault (ℕ × DicoStream × σ) :=
  if st.buftype = .none then writeUnbuffered T st x buf
  else if st.err then .ok (st.lastErr, st, x)
  else writeBuffered L T (2 * buf.length + 2) buf st x

end DicoStream

end Dico
