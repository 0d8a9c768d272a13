import Dico.Stream.Seek
import Mathlib.Algebra.Ring.Int.Defs
/-!
# Dictzip streams

The random access to compressed dictionaries of `dictstr.c`. The file is
compressed in chunks, each of which can be decompressed on its own; the
decompressed chunks are kept in a cache, ordered by how often each was
asked for. The cache is an array of pointers to entries, here the list of
the entries; a pointer to an entry is its position. Blocks that `malloc`
returns are taken to be filled with zeros, and `malloc` to succeed.

`inflate` is a parameter: a function of the bytes it is given and of the
room there is for the output.
-/

namespace Dico

namespace DictOrg

open Memory

/-- `DE_INFLATE`. -/
def DE_INFLATE : ℤ := -6

/-- `struct _dict_chunk`. -/
structure Chunk where
  length : ℕ
  offset : ℕ
  deriving DecidableEq, Repr

/-- `struct _dict_chunk_cache`. -/
structure CacheEntry where
  num : ℤ
  buffer : Bytes
  size : ℕ
  refcount : UInt32
  deriving DecidableEq, Repr

/-- What `inflate` did: whether it returned `Z_OK`, how many bytes it left
of its input, and what it stored. -/
structure Inflated where
  ok : Bool
  pending : ℕ
  output : Bytes
  deriving DecidableEq, Repr

/-- `inflate`, of the input and the size of the block for the output. -/
abbrev Inflate := Bytes → ℕ → Inflated

/-- `struct _dict_stream` of type `DICTORG_DZIP`, with the state of the
transport. -/
structure DictStream (σ : Type) where
  transport : DicoStream
  dev : σ
  transportError : ℕ
  chunkSize : ℕ
  /-- The chunks; their number is `chunk_count`. -/
  chunk : List Chunk
  size : ℕ
  offset : ℕ
  /-- The block for compressed data. -/
  buffer : Bytes
  zstrReady : Bool
  cacheSize : ℕ
  /-- The entries; their number is `cache_used`. -/
  cache : List CacheEntry

/-! ## The cache -/

/-- `cache_create_chunk`. -/
def cacheCreateChunk (chunkSize : ℕ) : CacheEntry where
  num := -1
  buffer := List.replicate chunkSize 0
  size := 0
  refcount := 0

/-- `cache_alloc`: the position of an entry to fill. -/
def cacheAlloc (cacheSize chunkSize : ℕ) (cache : List CacheEntry) : ℕ × List CacheEntry :=
  if cache.length < cacheSize then (cache.length, cache ++ [cacheCreateChunk chunkSize])
  else (cache.length - 1,
    cache.modify (cache.length - 1) fun cp => { cp with refcount := 0, num := -1 })

/-- The loop of `cache_promote`: the first of the positions before `n` whose
entries, up to `n`, were all asked for less often than `refcount`. -/
def promoteTo (cache : List CacheEntry) (refcount : UInt32) : ℕ → ℕ
  | 0 => 0
  | n + 1 =>
    if cache[n]?.any fun cp => refcount ≤ cp.refcount then n + 1
    else promoteTo cache refcount n

/-- `cache_promote`: where the entry is now. -/
def cachePromote (cache : List CacheEntry) (n : ℕ) : Except Fault (ℕ × List CacheEntry) :=
  match cache[n]? with
  | none => .error .bounds
  | some cp =>
    let cp := { cp with refcount := cp.refcount + 1 }
    let i := promoteTo cache cp.refcount n
    match cache[i]? with
    | none => .error .bounds
    | some other =>
      if i ≠ n then .ok (i, (cache.set n other).set i cp) else .ok (n, cache.set n cp)

/-- The loop of `cache_get`. -/
def cacheFind (cache : List CacheEntry) (chunkNum : ℤ) : Option ℕ :=
  cache.findIdx? fun cp => cp.num = chunkNum

/-- An entry for a chunk that is not there, numbered and promoted. -/
def cacheAdmit (cacheSize chunkSize : ℕ) (cache : List CacheEntry) (chunkNum : ℤ) :
    Except Fault (ℕ × List CacheEntry) :=
  let (i, cache) := cacheAlloc cacheSize chunkSize cache
  cachePromote (cache.modify i fun cp => { cp with num := chunkNum }) i

namespace DictStream

variable {σ : Type}

/-- `str->chunk[chunk_num]`. -/
def chunkAt (str : DictStream σ) (chunkNum : ℤ) : Except Fault Chunk :=
  match chunkNum with
  | .ofNat k =>
    match str.chunk[k]? with
    | none => .error .bounds
    | some c => .ok c
  | .negSucc _ => .error .bounds

/-- The end of `cache_get`: `rdbytes` bytes of the block for compressed data
are decompressed into the entry at `i`. -/
def inflateInto (Z : Inflate) (str : DictStream σ) (i rdbytes : ℕ) :
    Except Fault (ℤ × Option ℕ × DictStream σ) :=
  match peek str.buffer 0 rdbytes, str.cache[i]? with
  | some input, some cp =>
    let z := Z input str.chunkSize
    match poke cp.buffer 0 z.output with
    | none => .error .bounds
    | some block =>
      let cp := { cp with buffer := block }
      if !z.ok || z.pending != 0 then
        .ok (DE_INFLATE, none, { str with cache := str.cache.set i cp })
      else
        .ok (0, some i,
          { str with cache := str.cache.set i { cp with size := z.output.length } })
  | _, _ => .error .bounds

/-- `inflateInit2` is called once; `init` tells whether it succeeds. -/
def inflateReady (init : Bool) (str : DictStream σ) : Option (DictStream σ) :=
  if str.zstrReady || init then some { str with zstrReady := true } else none

/-- The part of `cache_get` that fills the entry at `i` with a chunk. An
error of `dico_stream_read` is a positive number, so that the test for a
negative one never finds it; the count it did not store is what `rdbytes`
happened to hold, `junk`. -/
def cacheFill (Z : Inflate) (L : Limits) (T : Transport σ) (init : Bool) (junk : ℕ)
    (str : DictStream σ) (i : ℕ) (chunkNum : ℤ) : Except Fault (ℤ × Option ℕ × DictStream σ) := do
  let c ← str.chunkAt chunkNum
  let (pos, st, x) ← str.transport.seek L T str.dev c.offset .set
  let str := { str with transport := st, dev := x }
  if pos < 0 then
    .ok (st.lastErr, none, { str with transportError := st.lastErr })
  else match str.inflateReady init with
    | none => .ok (DE_INFLATE, none, str)
    | some str => do
      let r ← str.transport.read T str.dev c.length true
      match poke str.buffer 0 r.data with
      | none => .error .bounds
      | some block =>
        inflateInto Z { str with transport := r.st, dev := r.dev, buffer := block } i
          (r.pread.getD junk)

/-- `cache_get`: its value, and the position of the entry it returns. -/
def cacheGet (Z : Inflate) (L : Limits) (T : Transport σ) (init : Bool) (junk : ℕ)
    (str : DictStream σ) (chunkNum : ℤ) : Except Fault (ℤ × Option ℕ × DictStream σ) :=
  match cacheFind str.cache chunkNum with
  | some i => do
    let (i, cache) ← cachePromote str.cache i
    .ok (0, some i, { str with cache := cache })
  | none => do
    let (i, cache) ← cacheAdmit str.cacheSize str.chunkSize str.cache chunkNum
    cacheFill Z L T init junk { str with cache := cache } i chunkNum

/-! ## Reading and seeking -/

/-- What `_dict_read_dzip` leaves behind: its value, which is not set if
nothing was asked for, the bytes it stored, and the numbers of the chunks
it asked for. -/
structure DzipRead (σ : Type) where
  rc : Option ℤ
  data : Bytes
  asked : List ℤ
  str : DictStream σ

/-- A difference of two values of type `size_t`. -/
def sizeSub (a b : ℕ) : ℕ := (a + 2 ^ 64 - b) % 2 ^ 64

/-- What is copied from a chunk, from an offset into it on. A chunk shorter
than the offset makes the difference wrap around. -/
def copyChunk (cp : CacheEntry) (chunkOff size : ℕ) : Option Bytes :=
  peek cp.buffer chunkOff (min (sizeSub cp.size chunkOff) size)

/-- What is there, or else a fault. -/
def orFault {α : Type} (e : Fault) : Option α → Except Fault α
  | none => .error e
  | some a => .ok a

@[simp] theorem orFault_some {α : Type} (e : Fault) (a : α) : orFault e (some a) = .ok a := rfl

/-- The body of the loop of `_dict_read_dzip`, behind the call of
`cache_get`: how many bytes were copied, or `none` if the loop is left. -/
def copyFrom (s : DzipRead σ) (chunkNum : ℤ) (chunkOff size : ℕ) (rc : ℤ) (i : Option ℕ)
    (str : DictStream σ) : Except Fault (Option ℕ × DzipRead σ) :=
  let s := { s with rc := some rc, asked := s.asked ++ [chunkNum], str := str }
  if rc ≠ 0 then .ok (none, s)
  else do
    let cp ← orFault .dangling (i.bind (str.cache[·]?))
    let w ← orFault .bounds (copyChunk cp chunkOff size)
    .ok (some w.length, { s with
      data := s.data ++ w, str := { str with offset := str.offset + w.length } })

/-- The body of the loop of `_dict_read_dzip`. -/
def readChunk (Z : Inflate) (L : Limits) (T : Transport σ) (init : Bool) (junk : ℕ)
    (s : DzipRead σ) (chunkNum : ℤ) (chunkOff size : ℕ) :
    Except Fault (Option ℕ × DzipRead σ) := do
  let (rc, i, str) ← cacheGet Z L T init junk s.str chunkNum
  copyFrom s chunkNum chunkOff size rc i str

/-- The loop of `_dict_read_dzip`. -/
def readDzipLoop (Z : Inflate) (L : Limits) (T : Transport σ) (init : Bool) (junk : ℕ) :
    ℕ → DzipRead σ → ℤ → ℕ → ℕ → Except Fault (DzipRead σ)
  | 0, _, _, _, _ => .error .loop
  | fuel + 1, s, chunkNum, chunkOff, size =>
    if size = 0 then .ok s
    else do
      let (n, s) ← readChunk Z L T init junk s chunkNum chunkOff size
      match n with
      | none => .ok s
      | some n => readDzipLoop Z L T init junk fuel s (chunkNum + 1) 0 (size - n)

/-- `_dict_read_dzip`. A round asks for one chunk, each for another one, so
a round for every chunk and one to leave are enough. A division by zero
ends the process, too. -/
def readDzip (Z : Inflate) (L : Limits) (T : Transport σ) (init : Bool) (junk : ℕ)
    (str : DictStream σ) (size : ℕ) : Except Fault (DzipRead σ) :=
  if str.chunkSize = 0 then .error .abort
  else
    let chunkNum := Int.bmod (str.offset / str.chunkSize : ℕ) (2 ^ 32)
    let chunkOff := sizeSub str.offset (chunkNum * str.chunkSize % 2 ^ 32).toNat
    readDzipLoop Z L T init junk (str.chunk.length + 2) ⟨none, [], [], str⟩ chunkNum chunkOff size

/-- Where `_dict_seek_dzip` is asked to go. -/
def seekOffset (str : DictStream σ) (needle : ℤ) : Whence → ℤ
  | .set => needle
  | .cur => str.offset + needle
  | .ofEnd => str.size + needle

/-- `_dict_seek_dzip`: its value, the position it stored, and the stream. -/
def seekDzip (str : DictStream σ) (needle : ℤ) (whence : Whence) : ℕ × ℤ × DictStream σ :=
  let offset := str.seekOffset needle whence
  if offset < 0 ∨ str.size < offset then (EINVAL.val, 0, str)
  else (0, offset, { str with offset := offset.toNat })

end DictStream

end DictOrg

end Dico
