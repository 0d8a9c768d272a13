import Dico.DictOrg.Cache
/-!
# Opening a dictionary

`_dict_open` of `dictstr.c` reads the header of a dictionary: the fields of
gzip, and behind them the extra field with the size of a chunk and the
lengths of the compressed chunks, all of them 16-bit numbers. Whether a
read succeeded is not looked at, so a number that the file is too short for
is the one before it. The block for compressed data is as large as a chunk
is when it is not compressed.
-/

namespace Dico

namespace DictOrg

open Memory DicoStream

/-! ## The model -/

/-- `DE_UNSUPPORTED_VERSION`. -/
def DE_UNSUPPORTED_VERSION : ℤ := -3
/-- `DE_BAD_HEADER`. -/
def DE_BAD_HEADER : ℤ := -4

/-- `GZ_MAGIC1` and `GZ_MAGIC2`. -/
def gzMagic : Bytes := [0x1f, 0x8b]
/-- `GZ_RND_S1` and `GZ_RND_S2`. -/
def gzRnd : Bytes := [0x52, 0x41]

/-- `GZ_FHCRC`. -/
def GZ_FHCRC : UInt8 := 2
/-- `GZ_FEXTRA`. -/
def GZ_FEXTRA : UInt8 := 4
/-- `GZ_FNAME`. -/
def GZ_FNAME : UInt8 := 8
/-- `GZ_COMMENT`. -/
def GZ_COMMENT : UInt8 := 16

/-- `GZ_XLEN`. -/
def GZ_XLEN : ℕ := 10

/-- `str->type`. -/
inductive DictType
  | unknown
  | text
  | gzip
  | dzip
  deriving DecidableEq, Repr

/-- What the local variables of `_dict_open` hold before they are set; the
last two are the counts of the bytes of the name and of the comment. -/
structure Locals where
  buf8 : UInt8
  buf16 : ℕ
  buf32 : ℕ
  nameBytes : ℕ
  commentBytes : ℕ

/-- The fields of the header that reading does not use. -/
structure GzHeader where
  headerLength : ℕ
  method : UInt8
  flags : UInt8
  mtime : ℕ
  extraFlags : UInt8
  os : UInt8
  version : ℕ
  origName : Option Bytes
  comment : Option Bytes
  crc : ℕ
  compressedSize : ℕ
  deriving DecidableEq, Repr

/-- What the extra field says: the type of the file, the length of the
header so far, and the chunks. -/
structure Extra where
  type : DictType
  headerLength : ℕ
  version : ℕ
  chunkSize : ℕ
  lengths : List ℕ
  deriving DecidableEq, Repr

/-- `struct _dict_stream`. -/
structure DictFile where
  type : DictType
  header : GzHeader
  str : DictStream ℕ

section Reading

variable {σ : Type} (T : Transport σ)

/-- `stream_get8`, and what `*p` holds after it. -/
def streamGet8 (st : DicoStream) (x : σ) (p : UInt8) : Except Fault (UInt8 × DicoStream × σ) := do
  let r ← st.read T x 1 false
  .ok (r.data.headD p, r.st, r.dev)

/-- `stream_get16` and `stream_get32`, and what `*pres` holds after it. -/
def streamGet (n : ℕ) (st : DicoStream) (x : σ) (pres : ℕ) :
    Except Fault (ℕ × DicoStream × σ) := do
  let r ← st.read T x n false
  .ok (if r.rc = 0 then ofLe r.data else pres, r.st, r.dev)

/-- `stream_get16`. -/
def streamGet16 (st : DicoStream) (x : σ) (pres : ℕ) : Except Fault (ℕ × DicoStream × σ) :=
  streamGet T 2 st x pres

/-- `stream_get32`. -/
def streamGet32 (st : DicoStream) (x : σ) (pres : ℕ) : Except Fault (ℕ × DicoStream × σ) :=
  streamGet T 4 st x pres

/-- The fields of a fixed length behind the magic bytes. -/
def readFixed (v : Locals) (st : DicoStream) (x : σ) :
    Except Fault (GzHeader × ℕ × DicoStream × σ) := do
  let (method, st, x) ← streamGet8 T st x v.buf8
  let (flags, st, x) ← streamGet8 T st x method
  let (mtime, st, x) ← streamGet32 T st x v.buf32
  let (extraFlags, st, x) ← streamGet8 T st x flags
  let (os, st, x) ← streamGet8 T st x extraFlags
  .ok (⟨GZ_XLEN - 1, method, flags, mtime, extraFlags, os, 0, none, none, 0, 0⟩, mtime, st, x)

/-- The loop over the chunks that reads their lengths. -/
def readLengths : ℕ → ℕ → DicoStream → σ → Except Fault (List ℕ × DicoStream × σ)
  | 0, _, st, x => .ok ([], st, x)
  | n + 1, buf16, st, x => do
    let (buf16, st, x) ← streamGet16 T st x buf16
    let (lengths, st, x) ← readLengths n buf16 st x
    .ok (buf16 :: lengths, st, x)

/-- The numbers of the random access index. -/
def readIndex (headerLength buf16 : ℕ) (st : DicoStream) (x : σ) :
    Except Fault (ℤ × Extra × DicoStream × σ) := do
  let (version, st, x) ← streamGet16 T st x buf16
  if version ≠ 1 then .ok (DE_UNSUPPORTED_VERSION, ⟨.gzip, headerLength, version, 0, []⟩, st, x)
  else do
    let (chunkSize, st, x) ← streamGet16 T st x version
    let (chunkCount, st, x) ← streamGet16 T st x chunkSize
    if chunkCount = 0 then
      .ok (DE_BAD_HEADER, ⟨.gzip, headerLength, version, chunkSize, []⟩, st, x)
    else do
      let (lengths, st, x) ← readLengths T chunkCount chunkCount st x
      .ok (0, ⟨.dzip, headerLength, version, chunkSize, lengths⟩, st, x)

/-- The extra field; `id` is what the array of this name holds. -/
def readExtra (L : Limits) (v : Locals) (id : Bytes) (headerLength : ℕ) (st : DicoStream) (x : σ) :
    Except Fault (ℤ × Extra × DicoStream × σ) := do
  let (buf16, st, x) ← streamGet16 T st x v.buf16
  let headerLength := headerLength + (buf16 + 2)
  let r ← st.read T x 2 false
  if r.data ++ id.drop r.data.length = gzRnd then do
    let (_, st, x) ← r.st.seek L T r.dev 2 .cur
    readIndex T headerLength buf16 st x
  else do
    let (_, st, x) ← r.st.seek L T r.dev headerLength .set
    .ok (0, ⟨.gzip, headerLength, 0, 0, []⟩, st, x)

/-- The name of the original file or the comment, if there is one: the text
and the number of its bytes. Where `dico_stream_getdelim` has no memory at
all, neither is set. -/
def readName (L : Limits) (present : Bool) (rdbytes : ℕ) (st : DicoStream) (x : σ) :
    Except Fault (Option Bytes × ℕ × DicoStream × σ) :=
  if present then do
    let (_, line, n, st, x) ← st.getdelim L T x 0 0
    .ok (if n = 0 then (none, rdbytes, st, x) else (some line, line.length, st, x))
  else .ok (none, 0, st, x)

/-- The checksum of the header, if there is one: where it is passed over, and
how long it is. -/
def skipCrc (L : Limits) (present : Bool) (st : DicoStream) (x : σ) :
    Except Fault (ℕ × DicoStream × σ) :=
  if present then do
    let (_, st, x) ← st.seek L T x 2 .cur
    .ok (2, st, x)
  else .ok (0, st, x)

/-- Where the chunks are, one behind the other. -/
def chunksFrom : ℕ → List ℕ → List Chunk
  | _, [] => []
  | offset, length :: l => ⟨length, offset⟩ :: chunksFrom ((offset + length) % 2 ^ 32) l

end Reading

/-- `str`, with the chunks of a file. -/
def DictFile.make (cacheSize : ℕ) (h : GzHeader) (e : Extra) (size : ℕ) (st : DicoStream) (x : ℕ) :
    DictFile where
  type := e.type
  header := h
  str :=
    { transport := st, dev := x, transportError := 0, chunkSize := e.chunkSize,
      chunk := chunksFrom ((h.headerLength + 1) % 2 ^ 32) e.lengths, size := size, offset := 0,
      buffer := List.replicate e.chunkSize 0, zstrReady := false, cacheSize := cacheSize,
      cache := [] }

/-- The rest of the header and the end of the file. -/
def finishOpen (L : Limits) (v : Locals) (cacheSize : ℕ) (content : Bytes) (h : GzHeader)
    (buf32 : ℕ) (e : Extra) (st : DicoStream) (x : ℕ) : Except Fault (ℤ × DictFile) := do
  let T := mapfile content
  let (origName, n, st, x) ← readName T L (h.flags &&& GZ_FNAME != 0) v.nameBytes st x
  let (comment, m, st, x) ← readName T L (h.flags &&& GZ_COMMENT != 0) v.commentBytes st x
  let (l, st, x) ← skipCrc T L (h.flags &&& GZ_FHCRC != 0) st x
  let h := { h with
    headerLength := (e.headerLength + n + m + l) % 2 ^ 64
    version := e.version, origName := origName, comment := comment }
  let (pos, st, x) ← st.seek L T x 0 .cur
  if pos % 2 ^ 64 ≠ (h.headerLength + 1) % 2 ^ 64 then
    .ok (DE_BAD_HEADER, .make cacheSize h e 0 st x)
  else do
    let (_, st, x) ← st.seek L T x (-8) .ofEnd
    let (crc, st, x) ← streamGet32 T st x buf32
    let (size, st, x) ← streamGet32 T st x crc
    let (compressedSize, st, x) ← st.seek L T x 0 .cur
    let h := { h with crc := crc, compressedSize := (compressedSize % 2 ^ 64).toNat }
    .ok (if st.lastErr ≠ 0 then DE_BAD_HEADER else 0, .make cacheSize h e size st x)

/-- `_dict_open`, on a stream of `dict_stream_create` over a file with these
contents. -/
def dictOpen (L : Limits) (v : Locals) (cacheSize : ℕ) (content : Bytes) :
    Except Fault (ℤ × DictFile) := do
  let T := mapfile content
  let blank : GzHeader := ⟨GZ_XLEN - 1, 0, 0, 0, 0, 0, 0, none, none, 0, 0⟩
  let r ← (create true false true).read T 0 2 false
  if r.rc ≠ 0 then
    .ok (r.st.lastErr, .make cacheSize blank ⟨.unknown, GZ_XLEN - 1, 0, 0, []⟩ 0 r.st r.dev)
  else if r.data ≠ gzMagic then
    let h := { blank with compressedSize := content.length }
    .ok (0, .make cacheSize h ⟨.text, GZ_XLEN - 1, 0, 0, []⟩ content.length r.st r.dev)
  else do
    let (h, buf32, st, x) ← readFixed T v r.st r.dev
    if h.flags &&& GZ_FEXTRA = 0 then
      finishOpen L v cacheSize content h buf32 ⟨.gzip, h.headerLength, 0, 0, []⟩ st x
    else do
      let (rc, e, st, x) ← readExtra T L v r.data h.headerLength st x
      if rc ≠ 0 then .ok (rc, .make cacheSize h e 0 st x)
      else finishOpen L v cacheSize content h buf32 e st x

/-! ## A stream over a file that was mapped -/

section Mapped

variable {content : Bytes} {st st' : DicoStream} {x x' n : ℕ} {L : Limits}

/-- A stream that has failed for good. -/
structure Broken (st : DicoStream) : Prop where
  buftype : st.buftype = .none
  canRead : st.canRead = true
  err : st.err = true
  lastErr : st.lastErr ≠ 0

namespace Broken

/-- It reads nothing. -/
theorem read (h : Broken st) (x n : ℕ) :
    st.read (mapfile content) x n false = .ok ⟨st.lastErr, [], none, st, x⟩ := by
  rw [DicoStream.read, if_pos h.buftype]
  simp only [readUnbuffered, mapfile, h.canRead, h.err, Bool.not_true, Bool.false_eq_true,
    if_false, if_true]

/-- And goes nowhere. -/
theorem seek (h : Broken st) (x : ℕ) (offset : ℤ) (whence : Whence) :
    st.seek L (mapfile content) x offset whence = .ok (-1, st, x) := by
  rw [DicoStream.seek, seekWith, if_pos h.err]

theorem streamGet (h : Broken st) (x n pres : ℕ) :
    streamGet (mapfile content) n st x pres = .ok (pres, st, x) := by
  rw [DictOrg.streamGet, h.read, ok_bind]
  simp only [if_neg h.lastErr]

theorem readLengths (h : Broken st) (n x pres : ℕ) :
    ∃ l, readLengths (mapfile content) n pres st x = .ok (l, st, x) := by
  induction n with
  | zero => exact ⟨[], rfl⟩
  | succ n ih =>
    obtain ⟨l, hl⟩ := ih
    refine ⟨pres :: l, ?_⟩
    rw [DictOrg.readLengths, streamGet16, h.streamGet, ok_bind]
    simp only [hl, ok_bind]

/-- The index is not found out. -/
theorem readIndex (h : Broken st) (headerLength pres x : ℕ) :
    ∃ rc e, readIndex (mapfile content) headerLength pres st x = .ok (rc, e, st, x) := by
  obtain ⟨l, hl⟩ := @readLengths content st h pres x pres
  simp only [DictOrg.readIndex, streamGet16, h.streamGet, ok_bind, hl]
  split_ifs
  · exact ⟨_, _, rfl⟩
  · exact ⟨_, _, rfl⟩
  · exact ⟨_, _, rfl⟩

theorem readName (h : Broken st) (present : Bool) (rdbytes x : ℕ) :
    ∃ o n, readName (mapfile content) L present rdbytes st x = .ok (o, n, st, x) := by
  cases present with
  | false => exact ⟨none, 0, rfl⟩
  | true =>
    have hline : ∃ rc line n, st.getdelim L (mapfile content) x 0 0 = .ok (rc, line, n, st, x) := by
      rw [getdelim, if_pos rfl]
      split_ifs
      · exact ⟨_, _, _, rfl⟩
      · rw [getdelimLoop, h.read, ok_bind, if_pos h.lastErr]
        exact ⟨_, _, _, rfl⟩
    obtain ⟨rc, line, n, hline⟩ := hline
    rw [DictOrg.readName, if_pos rfl, hline, ok_bind]
    dsimp only
    by_cases hn : n = 0
    · exact ⟨none, rdbytes, by rw [if_pos hn]⟩
    · exact ⟨some line, line.length, by rw [if_neg hn]⟩

theorem skipCrc (h : Broken st) (present : Bool) (x : ℕ) :
    ∃ n, skipCrc (mapfile content) L present st x = .ok (n, st, x) := by
  cases present with
  | false => exact ⟨0, rfl⟩
  | true =>
    refine ⟨2, ?_⟩
    rw [DictOrg.skipCrc, if_pos rfl, h.seek, ok_bind]

/-- **A stream that has failed is found out in the end.** -/
theorem finishOpen (h : Broken st) {v : Locals} {cacheSize : ℕ} {hd : GzHeader} {buf32 : ℕ}
    {e : Extra} {d : DictFile} : finishOpen L v cacheSize content hd buf32 e st x ≠ .ok (0, d) := by
  intro hok
  obtain ⟨o₁, n₁, hname⟩ :=
    @readName content st L h (hd.flags &&& GZ_FNAME != 0) v.nameBytes x
  obtain ⟨o₂, n₂, hcomment⟩ :=
    @readName content st L h (hd.flags &&& GZ_COMMENT != 0) v.commentBytes x
  obtain ⟨n₃, hcrc⟩ := @skipCrc content st L h (hd.flags &&& GZ_FHCRC != 0) x
  simp only [DictOrg.finishOpen, hname, hcomment, hcrc, h.seek, streamGet32, h.streamGet, ok_bind,
    if_pos h.lastErr] at hok
  split_ifs at hok
  · cases hok
  · cases hok

end Broken

/-- A stream that has not. -/
theorem plain_create (canWrite : Bool) (content : Bytes) :
    Plain content id (create true canWrite true) 0 where
  reads := ⟨rfl, rfl, rfl, rfl, Nat.zero_le _, fun h => by cases h⟩
  buftype := rfl
  level := rfl
  cur := rfl

/-- It reads what there is. -/
theorem read_plain (h : Plain content id st x) (hne : content ≠ []) (hn : 0 < n) :
    ∃ rc st', st.read (mapfile content) x n false =
        .ok ⟨rc, (content.drop x).take n, none, st', min (x + n) content.length⟩ ∧
      (rc = 0 ↔ x + n ≤ content.length) ∧
      Plain content id st' (min (x + n) content.length) := by
  have hle : x ≤ content.length := h.reads.pos_le
  rw [DicoStream.read, if_pos h.buftype]
  by_cases hall : x + n ≤ content.length
  · obtain ⟨st', x', hread, ⟨eof, bytesIn, lastErr, rfl⟩, hpos, hreads⟩ :=
      h.reads.whole (mapfile_fileLike content) hn hall
    obtain rfl : x' = min (x + n) content.length := by
      rw [id_eq, id_eq] at hpos
      omega
    exact ⟨0, _, hread, ⟨fun _ => hall, fun _ => rfl⟩,
      ⟨hreads, h.buftype, h.level, h.cur⟩⟩
  · -- the file ends before: what there is is read, and the read fails
    have hlt : content.length < id x + n := by
      rw [id_eq]
      omega
    obtain ⟨st', x', hread, ⟨eof, bytesIn, lastErr, rfl⟩, hpos, hreads⟩ :=
      h.reads.short (mapfile_fileLike content) hne hlt
    obtain rfl : x' = min (x + n) content.length := by
      rw [id_eq] at hpos
      omega
    have htake : (content.drop x).take n = content.drop x := by
      rw [List.take_of_length_le]
      rw [List.length_drop]
      omega
    refine ⟨_, _, ?_, ⟨fun hrc => absurd hrc EIO.2, fun h => absurd h hall⟩,
      ⟨hreads, h.buftype, h.level, h.cur⟩⟩
    rw [htake]
    exact hread

/-- A seek moves, or fails for good. -/
theorem seek_plain (h : Plain content id st x) {offset res : ℤ} {whence : Whence}
    (hseek : st.seek L (mapfile content) x offset whence = .ok (res, st', x')) :
    Broken st' ∨ Plain content id st' x' ∧ (x' : ℤ) = seekTarget content x offset whence := by
  have hnaked : Naked st := ⟨h.buftype, h.level, h.cur, h.reads.dirty,
    fun herr => absurd herr (Bool.eq_false_iff.1 h.reads.err)⟩
  have hserved : (FileOp.seek offset whence).Served content st x := by
    refine ⟨h.level, ?_⟩
    rintro ⟨-, hge, hlt⟩
    rw [h.cur] at hge
    omega
  by_cases hrange : SeekInRange content x offset whence
  · obtain ⟨x₁, hok, hreads, hpos⟩ :=
      @Reads.seek _ _ _ _ _ _ L (mapfile_fileLike content) h.reads _ _ _ hserved hrange
    rw [hok] at hseek
    obtain ⟨-, hrest⟩ := Prod.mk.inj (Except.ok.inj hseek)
    obtain ⟨rfl, rfl⟩ := Prod.mk.inj hrest
    exact .inr ⟨⟨hreads, h.buftype, rfl, rfl⟩, hpos⟩
  · -- `_mapfile_seek` refuses the place, and the stream keeps the error
    have hfail : seekTarget content x offset whence < 0 ∨
        (content.length : ℤ) < seekTarget content x offset whence := by
      rw [SeekInRange, not_and_or] at hrange
      omega
    have hbranch : ¬ (whence = .ofEnd ∧ 0 ≤ (st.cur : ℤ) + offset ∧
        (st.cur : ℤ) + offset < st.origLevel) := by
      rintro ⟨-, hge, hlt⟩
      rw [origLevel, h.level, h.cur] at hlt
      rw [h.cur] at hge
      omega
    have hflush : DicoStream.flush L (mapfile content) st x = .ok (0, st, x) :=
      hnaked.flush L rfl
    have hcall : mapfileSeek content x offset whence = (.fail EINVAL, x) := by
      rw [mapfileSeek, if_pos hfail]
    have hok : st.seek L (mapfile content) x offset whence =
        .ok (-1, st.seterror EINVAL.val true, x) := by
      rw [DicoStream.seek, seekWith, if_neg (Bool.eq_false_iff.1 h.reads.err)]
      simp only [mapfile, h.reads.canSeek, Bool.not_true, Bool.false_eq_true, if_false,
        if_neg hbranch]
      rw [mapfile] at hflush
      rw [hflush, ok_bind]
      simp only [ne_eq, not_true_eq_false, if_false, hcall]
    rw [hok] at hseek
    obtain ⟨-, hrest⟩ := Prod.mk.inj (Except.ok.inj hseek)
    obtain ⟨rfl, rfl⟩ := Prod.mk.inj hrest
    exact .inl ⟨h.buftype, h.reads.canRead, Bool.or_true _, EINVAL.2⟩

end Mapped

/-! ## The numbers of the header -/

/-- The 16-bit number at an offset, if the file is long enough. -/
def wordAt (content : Bytes) (offset pres : ℕ) : ℕ :=
  if offset + 2 ≤ content.length then ofLe ((content.drop offset).take 2) else pres

/-- The numbers of the random access index: the version, the size of a
chunk, the number of chunks, and then their lengths. One that the file is
too short for is the one before it. -/
def indexWord (content : Bytes) : ℕ → ℕ
  | 0 => wordAt content 16 (wordAt content 10 0)
  | k + 1 => wordAt content (18 + 2 * k) (indexWord content k)

/-- **Chunks that fit**: there is room in a chunk, and none of them is longer
when it is compressed than one that is not. -/
def ChunksFit (content : Bytes) : Prop :=
  0 < indexWord content 1 ∧
    ∀ i < indexWord content 2, indexWord content (3 + i) ≤ indexWord content 1

instance (content : Bytes) : Decidable (ChunksFit content) :=
  inferInstanceAs (Decidable (_ ∧ _))

section Header

variable {content : Bytes} {st st' : DicoStream} {x x' n : ℕ} {L : Limits}

/-- A byte at a place that the file may not have. -/
theorem streamGet8_plain {offset : ℕ} (h : Plain content id st (min offset content.length))
    (hne : content ≠ []) (p : UInt8) :
    ∃ b st', streamGet8 (mapfile content) st (min offset content.length) p =
        .ok (b, st', min (offset + 1) content.length) ∧
      Plain content id st' (min (offset + 1) content.length) := by
  obtain ⟨rc, st', hread, -, h'⟩ := read_plain h hne Nat.zero_lt_one
  have hpos : min (min offset content.length + 1) content.length =
      min (offset + 1) content.length := by omega
  rw [hpos] at hread h'
  exact ⟨_, st', by rw [streamGet8, hread, ok_bind], h'⟩

/-- A number at such a place. -/
theorem streamGet_plain {offset : ℕ} (h : Plain content id st (min offset content.length))
    (hne : content ≠ []) (hn : 0 < n) (pres : ℕ) :
    ∃ st', streamGet (mapfile content) n st (min offset content.length) pres =
        .ok (if offset + n ≤ content.length then ofLe ((content.drop offset).take n) else pres,
          st', min (offset + n) content.length) ∧
      Plain content id st' (min (offset + n) content.length) := by
  obtain ⟨rc, st', hread, hrc, h'⟩ := read_plain h hne hn
  have hpos : min (min offset content.length + n) content.length =
      min (offset + n) content.length := by omega
  rw [hpos] at hread h'
  refine ⟨st', ?_, h'⟩
  rw [streamGet, hread, ok_bind]
  by_cases hle : offset + n ≤ content.length
  · have hmin : min offset content.length = offset := by omega
    rw [hmin] at hrc ⊢
    simp only [if_pos hle, if_pos (hrc.2 hle)]
  · have hrc' : ¬ rc = 0 := by
      rw [hrc]
      omega
    simp only [if_neg hle, if_neg hrc']

theorem streamGet16_plain {offset : ℕ} (h : Plain content id st (min offset content.length))
    (hne : content ≠ []) (pres : ℕ) :
    ∃ st', streamGet16 (mapfile content) st (min offset content.length) pres =
        .ok (wordAt content offset pres, st', min (offset + 2) content.length) ∧
      Plain content id st' (min (offset + 2) content.length) :=
  streamGet_plain h hne Nat.zero_lt_two pres

/-- The fields of a fixed length. -/
theorem readFixed_plain (h : Plain content id st (min 2 content.length)) (hne : content ≠ [])
    {v : Locals} {hd : GzHeader} {buf32 : ℕ}
    (hread : readFixed (mapfile content) v st (min 2 content.length) = .ok (hd, buf32, st', x')) :
    x' = min 10 content.length ∧ Plain content id st' x' := by
  obtain ⟨b₁, st₁, h₁, hp₁⟩ := streamGet8_plain h hne v.buf8
  obtain ⟨b₂, st₂, h₂, hp₂⟩ := streamGet8_plain hp₁ hne b₁
  obtain ⟨st₃, h₃, hp₃⟩ := streamGet_plain hp₂ hne (show 0 < 4 by decide) v.buf32
  obtain ⟨b₄, st₄, h₄, hp₄⟩ := streamGet8_plain hp₃ hne b₂
  obtain ⟨b₅, st₅, h₅, hp₅⟩ := streamGet8_plain hp₄ hne b₄
  simp only [readFixed, streamGet32, h₁, h₂, h₃, h₄, h₅, ok_bind] at hread
  obtain ⟨-, hrest⟩ := Prod.mk.inj (Except.ok.inj hread)
  obtain ⟨-, hrest⟩ := Prod.mk.inj hrest
  obtain ⟨rfl, rfl⟩ := Prod.mk.inj hrest
  exact ⟨rfl, hp₅⟩

/-- **The lengths of the chunks.** -/
theorem readLengths_plain (hne : content ≠ []) (n : ℕ) {k : ℕ}
    (h : Plain content id st (min (18 + 2 * k) content.length)) :
    ∃ st' x', readLengths (mapfile content) n (indexWord content k) st
        (min (18 + 2 * k) content.length) =
      .ok ((List.range' (k + 1) n).map (indexWord content), st', x') := by
  induction n generalizing st k with
  | zero => exact ⟨_, _, rfl⟩
  | succ n ih =>
    obtain ⟨st₁, h₁, hp₁⟩ := streamGet16_plain h hne (indexWord content k)
    have hpos : 18 + 2 * k + 2 = 18 + 2 * (k + 1) := by omega
    rw [hpos] at h₁ hp₁
    obtain ⟨st', x', hrest⟩ := ih hp₁
    refine ⟨st', x', ?_⟩
    rw [readLengths, h₁, ok_bind]
    rw [indexWord] at hrest
    simp only [hrest, ok_bind, List.range'_succ, List.map_cons]
    rw [indexWord]

/-- **The index of a file**, if its type is found to be `DICTORG_DZIP`. -/
theorem readIndex_plain (hne : content ≠ []) {headerLength pres : ℕ} {e : Extra} {rc : ℤ}
    (h : Plain content id st (min 16 content.length))
    (hpres : wordAt content 16 pres = indexWord content 0) (htype : e.type = .dzip)
    (hread : readIndex (mapfile content) headerLength pres st (min 16 content.length) =
      .ok (rc, e, st', x')) :
    e.chunkSize = indexWord content 1 ∧
      e.lengths = (List.range' 3 (indexWord content 2)).map (indexWord content) := by
  -- each word that is behind the end of the file is the one before it
  obtain ⟨st₁, h₁, hp₁⟩ := streamGet16_plain h hne pres
  rw [hpres] at h₁
  obtain ⟨st₂, h₂, hp₂⟩ := streamGet16_plain hp₁ hne (indexWord content 0)
  obtain ⟨st₃, h₃, hp₃⟩ := streamGet16_plain hp₂ hne (indexWord content 1)
  obtain ⟨st₄, x₄, h₄⟩ := readLengths_plain hne (indexWord content 2) (k := 2) hp₃
  rw [readIndex, h₁, ok_bind] at hread
  dsimp only at hread
  split_ifs at hread with hversion
  · obtain ⟨-, hrest⟩ := Prod.mk.inj (Except.ok.inj hread)
    obtain ⟨rfl, -⟩ := Prod.mk.inj hrest
    cases htype
  · rw [h₂, ok_bind] at hread
    dsimp only at hread
    change streamGet16 (mapfile content) st₂ (min 20 content.length) (indexWord content 1) >>= _ =
      _ at hread
    rw [h₃, ok_bind] at hread
    dsimp only at hread
    split_ifs at hread with hcount
    · obtain ⟨-, hrest⟩ := Prod.mk.inj (Except.ok.inj hread)
      obtain ⟨rfl, -⟩ := Prod.mk.inj hrest
      cases htype
    · change readLengths (mapfile content) (indexWord content 2) (indexWord content 2) st₃
        (min 22 content.length) >>= _ = _ at hread
      rw [h₄, ok_bind] at hread
      obtain ⟨-, hrest⟩ := Prod.mk.inj (Except.ok.inj hread)
      obtain ⟨rfl, -⟩ := Prod.mk.inj hrest
      exact ⟨rfl, rfl⟩

/-- The random access index is only found in a file that has it. -/
theorem le_length_of_gzRnd
    (h : (content.drop (min 12 content.length)).take 2 ++
      gzMagic.drop ((content.drop (min 12 content.length)).take 2).length = gzRnd) :
    14 ≤ content.length := by
  by_contra hlt
  have hlen : ((content.drop (min 12 content.length)).take 2).length < 2 := by
    rw [List.length_take, List.length_drop]
    omega
  generalize (content.drop (min 12 content.length)).take 2 = w at h hlen
  rcases w with _ | ⟨b, _ | ⟨c, w⟩⟩
  · exact absurd h (by decide)
  · exact absurd (List.cons.inj (List.cons.inj h).2).1 (by decide)
  · rw [List.length_cons, List.length_cons] at hlen
    omega

/-- **The extra field**, if what follows it goes well. -/
theorem readExtra_plain (hne : content ≠ []) {v : Locals} {headerLength : ℕ} {e : Extra} {rc : ℤ}
    (h : Plain content id st (min 10 content.length)) (htype : e.type = .dzip)
    (hread : readExtra (mapfile content) L v gzMagic headerLength st (min 10 content.length) =
      .ok (rc, e, st', x')) (hbroken : ¬ Broken st') :
    e.chunkSize = indexWord content 1 ∧
      e.lengths = (List.range' 3 (indexWord content 2)).map (indexWord content) := by
  obtain ⟨st₁, h₁, hp₁⟩ := streamGet16_plain h hne v.buf16
  obtain ⟨rc₂, st₂, h₂, -, hp₂⟩ := read_plain hp₁ hne Nat.zero_lt_two
  rw [readExtra, h₁, ok_bind] at hread
  dsimp only at hread
  rw [h₂, ok_bind] at hread
  dsimp only at hread
  split_ifs at hread with hrnd
  · have hlen := le_length_of_gzRnd hrnd
    obtain ⟨⟨res, st₃, x₃⟩, hseek, hread⟩ := bind_eq_ok.1 hread
    rcases seek_plain hp₂ hseek with hb | ⟨hp₃, hx₃⟩
    · obtain ⟨rc', e', hindex⟩ := hb.readIndex (headerLength + (wordAt content 10 v.buf16 + 2))
        (wordAt content 10 v.buf16) x₃
      dsimp only at hread
      rw [hindex] at hread
      obtain ⟨-, hrest⟩ := Prod.mk.inj (Except.ok.inj hread)
      obtain ⟨-, hrest⟩ := Prod.mk.inj hrest
      obtain ⟨rfl, -⟩ := Prod.mk.inj hrest
      exact absurd hb hbroken
    · -- the seek goes over the two bytes of the length of the field
      have hle : x₃ ≤ content.length := hp₃.reads.pos_le
      obtain rfl : x₃ = min 16 content.length := by
        rw [seekTarget] at hx₃
        omega
      refine readIndex_plain hne hp₃ ?_ htype hread
      rw [indexWord]
      congr 1
      rw [wordAt, wordAt, if_pos (by omega), if_pos (by omega)]
  · obtain ⟨⟨res, st₃, x₃⟩, -, hread⟩ := bind_eq_ok.1 hread
    obtain ⟨-, hrest⟩ := Prod.mk.inj (Except.ok.inj hread)
    obtain ⟨rfl, -⟩ := Prod.mk.inj hrest
    cases htype

/-- What is left of the header does not change the chunks. -/
theorem finishOpen_make {v : Locals} {cacheSize : ℕ} {hd : GzHeader} {buf32 : ℕ} {e : Extra}
    {rc : ℤ} {d : DictFile} (h : finishOpen L v cacheSize content hd buf32 e st x = .ok (rc, d)) :
    ∃ hd' size st' x', d = .make cacheSize hd' e size st' x' := by
  obtain ⟨⟨o₁, n₁, st₁, x₁⟩, -, h⟩ := bind_eq_ok.1 h
  obtain ⟨⟨o₂, n₂, st₂, x₂⟩, -, h⟩ := bind_eq_ok.1 h
  obtain ⟨⟨n₃, st₃, x₃⟩, -, h⟩ := bind_eq_ok.1 h
  obtain ⟨⟨pos, st₄, x₄⟩, -, h⟩ := bind_eq_ok.1 h
  dsimp only at h
  split_ifs at h
  · obtain ⟨-, rfl⟩ := Prod.mk.inj (Except.ok.inj h)
    exact ⟨_, _, _, _, rfl⟩
  · obtain ⟨⟨p₅, st₅, x₅⟩, -, h⟩ := bind_eq_ok.1 h
    obtain ⟨⟨crc, st₆, x₆⟩, -, h⟩ := bind_eq_ok.1 h
    obtain ⟨⟨size, st₇, x₇⟩, -, h⟩ := bind_eq_ok.1 h
    obtain ⟨⟨p₈, st₈, x₈⟩, -, h⟩ := bind_eq_ok.1 h
    obtain ⟨-, rfl⟩ := Prod.mk.inj (Except.ok.inj h)
    exact ⟨_, _, _, _, rfl⟩

/-- The lengths are as they were read. -/
theorem length_chunksFrom (offset : ℕ) (l : List ℕ) :
    (chunksFrom offset l).map Chunk.length = l := by
  induction l generalizing offset with
  | nil => rfl
  | cons n l ih => rw [chunksFrom, List.map_cons, ih]

/-- **What the header of a compressed file is taken to say.** -/
theorem dictOpen_dzip {v : Locals} {cacheSize : ℕ} {d : DictFile}
    (h : dictOpen L v cacheSize content = .ok (0, d)) (htype : d.type = .dzip) :
    d.str.chunkSize = indexWord content 1 ∧ d.str.buffer.length = indexWord content 1 ∧
      d.str.chunk.map Chunk.length =
        (List.range' 3 (indexWord content 2)).map (indexWord content) := by
  obtain ⟨r, hr, h⟩ := bind_eq_ok.1 h
  have hfile : r.rc = 0 → content ≠ [] := by
    rintro hrc rfl
    obtain rfl := Except.ok.inj hr
    exact absurd hrc (by decide)
  dsimp only at h
  split_ifs at h with hrc hmagic
  · obtain ⟨-, rfl⟩ := Prod.mk.inj (Except.ok.inj h)
    cases htype
  · obtain ⟨-, rfl⟩ := Prod.mk.inj (Except.ok.inj h)
    cases htype
  · -- what is read before the extra field are the ten bytes of a gzip header
    rw [not_not] at hrc hmagic
    have hne := hfile hrc
    obtain ⟨rc, st₁, hread, -, hp₁⟩ :=
      read_plain (plain_create false content) hne Nat.zero_lt_two
    rw [hread] at hr
    obtain rfl := Except.ok.inj hr
    obtain ⟨⟨hd, buf32, st₂, x₂⟩, hfixed, h⟩ := bind_eq_ok.1 h
    obtain ⟨rfl, hp₂⟩ := readFixed_plain hp₁ hne hfixed
    dsimp only at h hmagic
    split_ifs at h with hextra
    · obtain ⟨hd', size, st', x', rfl⟩ := finishOpen_make h
      cases htype
    · rw [hmagic] at h
      obtain ⟨⟨rc', e, st₃, x₃⟩, hread, h⟩ := bind_eq_ok.1 h
      dsimp only at h
      split_ifs at h with hrc'
      · obtain ⟨hzero, -⟩ := Prod.mk.inj (Except.ok.inj h)
        exact absurd hzero hrc'
      · -- after a seek that failed, asking for the size fails too
        have hbroken : ¬ Broken st₃ := fun hb => hb.finishOpen h
        obtain ⟨hd', size, st', x', rfl⟩ := finishOpen_make h
        obtain ⟨hsize, hlengths⟩ := readExtra_plain hne hp₂ htype hread hbroken
        refine ⟨hsize, ?_, ?_⟩
        · exact (List.length_replicate ..).trans hsize
        · exact (length_chunksFrom _ _).trans hlengths

end Header

/-! ## Loading a chunk -/

section Loads

variable {σ : Type} {Z : Inflate} {L : Limits} {T : Transport σ} {str str' : DictStream σ}

/-- **Every chunk can be loaded**: there is something in a chunk, and the
block for compressed data has room for each of them. -/
def DictStream.LoadsFit (str : DictStream σ) : Prop :=
  0 < str.chunkSize ∧ ∀ c ∈ str.chunk, c.length ≤ str.buffer.length

/-- Loading changes neither the chunks nor the size of the block. -/
theorem cacheGet_block {init : Bool} {junk : ℕ} {k rc : ℤ} {oi : Option ℕ}
    (h : str.cacheGet Z L T init junk k = .ok (rc, oi, str')) :
    str'.chunkSize = str.chunkSize ∧ str'.chunk = str.chunk ∧
      str'.buffer.length = str.buffer.length := by
  rcases DictStream.cacheGet_cases h with ⟨a, b, cp, rest, -, -, -, -, -, rfl⟩ |
    ⟨-, a, b, slot, -, -, hfill⟩
  · exact ⟨rfl, rfl, rfl⟩
  · obtain ⟨c, pos, st, x, -, -, ⟨-, -, rfl⟩ | ⟨-, -, rfl⟩ | ⟨-, r, block, -, hpoke, hinf⟩⟩ :=
      DictStream.cacheFill_cases hfill
    · exact ⟨rfl, rfl, rfl⟩
    · exact ⟨rfl, rfl, rfl⟩
    · obtain ⟨input, out, -, -, ⟨-, rfl⟩ | ⟨_, -, -, -, rfl⟩⟩ :=
        DictStream.inflateInto_cases rfl hinf
      · exact ⟨rfl, rfl, length_of_poke hpoke⟩
      · exact ⟨rfl, rfl, length_of_poke hpoke⟩

/-- So does a whole run of calls. -/
theorem loadsFit_run (h : str.LoadsFit) (qs : List Request) :
    Run.Always (request Z L T) (fun s => s.str.LoadsFit) qs (Served.opened str) := by
  refine Run.always_of_step (fun q s s' hs hstep => ?_) h
  obtain ⟨⟨rc, i, str'⟩, hget, hs'⟩ := bind_eq_ok.1 hstep
  obtain rfl := Except.ok.inj hs'
  obtain ⟨hsize, hchunk, hbuffer⟩ := cacheGet_block hget
  obtain ⟨hpos, hle⟩ := hs
  refine ⟨?_, fun c hc => ?_⟩
  · rw [hsize]
    exact hpos
  · rw [hbuffer]
    exact hle c (hchunk ▸ hc)

end Loads

/-- **Every later load of a chunk fits its buffers** if and only if the
numbers of the header do. -/
theorem dictOpen_loadsFit_iff {L : Limits} {v : Locals} {cacheSize : ℕ} {content : Bytes}
    {d : DictFile} (h : dictOpen L v cacheSize content = .ok (0, d)) (htype : d.type = .dzip) :
    (∀ Z qs, Run.Always (request Z L (mapfile content)) (fun s => s.str.LoadsFit) qs
        (Served.opened d.str)) ↔ ChunksFit content := by
  obtain ⟨hsize, hbuffer, hlengths⟩ := dictOpen_dzip h htype
  have hfits : d.str.LoadsFit ↔ ChunksFit content := by
    have hmap : (∀ c ∈ d.str.chunk, c.length ≤ d.str.buffer.length) ↔
        ∀ n ∈ d.str.chunk.map Chunk.length, n ≤ indexWord content 1 := by
      rw [hbuffer, List.forall_mem_map]
    rw [DictStream.LoadsFit, ChunksFit, hsize, hmap, hlengths, List.forall_mem_map]
    refine and_congr_right fun _ => ⟨fun hle i hi => ?_, fun hle n hn => ?_⟩
    · exact hle (3 + i) (List.mem_range'_1.2 ⟨by omega, by omega⟩)
    · obtain ⟨hge, hlt⟩ := List.mem_range'_1.1 hn
      obtain ⟨i, rfl⟩ : ∃ i, n = 3 + i := ⟨n - 3, by omega⟩
      exact hle i (by omega)
  constructor
  · intro hrun
    have hopened := Run.always_nil.1 (hrun (fun _ _ => ⟨false, 0, []⟩) [])
    exact hfits.1 hopened
  · intro hfit Z qs
    exact loadsFit_run (hfits.2 hfit) qs

/-- A file of one chunk, the letter `a`, that is stored and not compressed;
chunks are said to be of some size. -/
def storedFile (chunkSize : UInt8) : Bytes :=
  gzMagic ++ [8, 4, 0, 0, 0, 0, 0, 3, 12, 0] ++ gzRnd ++ [8, 0, 1, 0, chunkSize, 0, 1, 0, 6, 0] ++
    [0, 1, 0, 0xfe, 0xff, 0x61] ++ [0x43, 0xbe, 0xb7, 0xe8, 1, 0, 0, 0]

theorem dictOpen_loadsFit_iff_stored :
    ∃ d, dictOpen ⟨1, 0, by decide⟩ ⟨0, 0, 0, 0, 0⟩ 10 (storedFile 8) = .ok (0, d) ∧
      d.type = .dzip ∧ ∀ Z qs, Run.Always (request Z ⟨1, 0, by decide⟩ (mapfile (storedFile 8)))
        (fun s => s.str.LoadsFit) qs (Served.opened d.str) := by
  have hopen : ∃ d, dictOpen ⟨1, 0, by decide⟩ ⟨0, 0, 0, 0, 0⟩ 10 (storedFile 8) = .ok (0, d) ∧
      d.type = .dzip := ⟨_, rfl, rfl⟩
  obtain ⟨d, hd, htype⟩ := hopen
  exact ⟨d, hd, htype, (dictOpen_loadsFit_iff hd htype).2 (by decide)⟩

/-- A chunk that is stored is longer than it was. -/
theorem not_forall_dictOpen_loadsFit :
    ¬ ∀ (L : Limits) (v : Locals) (cacheSize : ℕ) (content : Bytes) (d : DictFile),
      dictOpen L v cacheSize content = .ok (0, d) → d.type = .dzip →
        ∀ Z qs, Run.Always (request Z L (mapfile content)) (fun s => s.str.LoadsFit) qs
          (Served.opened d.str) := by
  intro h
  have hopen : ∃ d, dictOpen ⟨1, 0, by decide⟩ ⟨0, 0, 0, 0, 0⟩ 10 (storedFile 1) = .ok (0, d) ∧
      d.type = .dzip ∧ ¬ d.str.LoadsFit := by
    refine ⟨_, rfl, rfl, fun hfit => ?_⟩
    exact absurd (hfit.2 ⟨6, 24⟩ List.mem_cons_self) (by decide)
  obtain ⟨d, hd, htype, hnot⟩ := hopen
  have hopened := Run.always_nil.1 (h _ _ _ _ d hd htype (fun _ _ => ⟨false, 0, []⟩) [])
  exact hnot hopened

end DictOrg

end Dico
