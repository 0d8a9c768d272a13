import Dico.Common.Source
import Dico.Filter.Model
import Dico.Text.Cstr
import Dico.Text.Tokenize
/-!
# Decoding streams

The reading side of `lib/fltstream.c`, with the decoders of `lib/base64.c`
and `lib/qp.c`. What the transport has to give is read into a buffer of
2048 bytes, of which `level` are in use; a decoder turns them into output
in the block of the caller, and says how many it has consumed.

Two steps of `filter_read` do not fit together with that. Bytes that are
left in the buffer are not counted any more when others are read behind
them. And `level` is set to the number of the bytes that are consumed,
where it should be lowered by it.
-/

namespace Dico

/-- A decoder: of the bytes in use, with the block of the caller, the
number of bytes it consumes, the block then, and how many bytes of it are
output. -/
abbrev Decoder := Bytes → Bytes → Except Fault (ℕ × Bytes × ℕ)

/-! ## Base64 -/

/-- `b64val`. -/
def b64val : List ℤ :=
  [-1, -1, -1, -1, -1, -1, -1, -1, -1, -1, -1, -1, -1, -1, -1, -1,
    -1, -1, -1, -1, -1, -1, -1, -1, -1, -1, -1, -1, -1, -1, -1, -1,
    -1, -1, -1, -1, -1, -1, -1, -1, -1, -1, -1, 62, -1, -1, -1, 63,
    52, 53, 54, 55, 56, 57, 58, 59, 60, 61, -1, -1, -1, -1, -1, -1,
    -1, 0, 1, 2, 3, 4, 5, 6, 7, 8, 9, 10, 11, 12, 13, 14,
    15, 16, 17, 18, 19, 20, 21, 22, 23, 24, 25, -1, -1, -1, -1, -1,
    -1, 26, 27, 28, 29, 30, 31, 32, 33, 34, 35, 36, 37, 38, 39, 40,
    41, 42, 43, 44, 45, 46, 47, 48, 49, 50, 51, -1, -1, -1, -1, -1]

/-- `b64val[c]`. The table has no entry for bytes above 127. -/
def b64value (c : UInt8) : Except Fault ℤ :=
  match b64val[c.toNat]? with
  | none => .error .bounds
  | some v => .ok v

/-- The characters of a block, up to four of them: those that the table
knows, and `=` for zero. `pad` counts the latter. What is left of the
input, `data` and `pad`. -/
def b64gather : Bytes → List ℕ → ℕ → Except Fault (Bytes × List ℕ × ℕ)
  | [], data, pad => .ok ([], data, pad)
  | c :: rest, data, pad =>
    if data.length < 4 then do
      let tmp ← b64value c
      if tmp ≠ -1 then b64gather rest (data ++ [tmp.toNat]) pad
      else if c = Base64.padding then b64gather rest (data ++ [0]) (pad + 1)
      else b64gather rest data pad
    else .ok (c :: rest, data, pad)

/-- The three bytes of a block. -/
def b64bytes (data : List ℕ) : Bytes :=
  let d := fun i => data.getD i 0
  [UInt8.ofNat (d 0 <<< 2 ||| (d 1 &&& 0x30) >>> 4),
    UInt8.ofNat ((d 1 &&& 0xf) <<< 4 ||| (d 2 &&& 0x3c) >>> 2),
    UInt8.ofNat ((d 2 &&& 0x3) <<< 6 ||| d 3)]

/-- `nbytes += 3 - pad`. -/
def b64count (nbytes pad : ℕ) : ℕ := (nbytes + 3 + (2 ^ 64 - pad)) % 2 ^ 64

/-- The loop of `_flt_base64_decode`, with the number of blocks it may
take: the input that is left, where in `obuf` the next block goes, and how
many bytes are output. Nothing sets `pad` back. -/
def b64blocks (isize : ℕ) : ℕ → Bytes → ℕ → ℕ → Bytes → ℕ → Except Fault (ℕ × Bytes × ℕ)
  | 0, _, _, _, _, _ => .error .loop
  | fuel + 1, inp, pad, optr, obuf, nbytes =>
    if inp ≠ [] ∧ (nbytes + 3) % 2 ^ 64 < obuf.length then do
      let (rest, data, pad) ← b64gather inp [] pad
      if data.length = 4 then
        match Memory.poke obuf optr (b64bytes data) with
        | none => .error .bounds
        | some obuf => b64blocks isize fuel rest pad (optr + 3) obuf (b64count nbytes pad)
      else .ok (isize - rest.length - data.length, obuf, nbytes)
    else .ok (isize - inp.length, obuf, nbytes)

/-- `_flt_base64_decode`. -/
def fltBase64Decode : Decoder := fun inp obuf =>
  b64blocks inp.length (inp.length + 1) inp 0 0 obuf 0

/-! ## Quoted-printable -/

/-- The value of a hexadecimal digit. -/
def hexValue (c : UInt8) : Option ℕ :=
  if 48 ≤ c ∧ c ≤ 57 then some (c.toNat - 48)
  else if 65 ≤ c ∧ c ≤ 70 then some (c.toNat - 55)
  else if 97 ≤ c ∧ c ≤ 102 then some (c.toNat - 87)
  else none

/-- `strtoul (chr, NULL, 16)`, of a string of two characters. It is too
short for a `0x` with a digit behind it. -/
def strtoulHex (chr : Bytes) : ℕ :=
  let s := chr.dropWhile isSpace
  let digits := match s with
    | c :: t => if c = 43 ∨ c = 45 then t else s
    | [] => []
  let n := (digits.takeWhile fun c => (hexValue c).isSome).foldl
    (fun n c => 16 * n + (hexValue c).getD 0) 0
  if s.head? = some 45 then (2 ^ 64 - n) % 2 ^ 64 else n

/-- The locals of `dico_qp_decode`. The blanks that are counted in
`wscount` are kept. -/
structure QpDecode where
  obuf : Bytes
  nbytes : ℕ
  consumed : ℕ
  blanks : Bytes

namespace QpDecode

/-- `*optr++ = c; nbytes++`, with so many bytes of the input consumed. -/
def put (s : QpDecode) (c : UInt8) (n : ℕ) : Except Fault QpDecode := do
  let obuf ← store s.obuf s.nbytes c
  .ok { s with obuf := obuf, nbytes := s.nbytes + 1, consumed := s.consumed + n }

/-- What is done with the blanks before the character `c`: they are
dropped at the end of a line, and are copied otherwise, as far as there is
room. Whether the loop is left. -/
def settle (s : QpDecode) (c : UInt8) : Except Fault (Bool × QpDecode) :=
  if s.blanks = [] then .ok (false, s)
  else if c = 13 ∨ c = newline then .ok (false, { s with blanks := [] })
  else
    let sz := min s.blanks.length (s.obuf.length - s.nbytes)
    match Memory.poke s.obuf s.nbytes (s.blanks.take sz) with
    | none => .error .bounds
    | some obuf =>
      let s := { s with obuf := obuf, nbytes := s.nbytes + sz, blanks := s.blanks.drop sz }
      .ok (s.blanks ≠ [] ∨ s.nbytes = s.obuf.length, s)

/-- One round of the loop, at the character `c`: the input that is left,
or none where the loop is left by a `break`. -/
def round (s : QpDecode) (c : UInt8) (rest : Bytes) : Except Fault (Option Bytes × QpDecode) :=
  if isWs c then
    .ok (some rest, { s with blanks := s.blanks ++ [c], consumed := s.consumed + 1 })
  else do
    let (stop, s) ← s.settle c
    if stop then .ok (none, s)
    else if c = 61 then
      match rest with
      | x :: y :: rest =>
        if x = newline then .ok (some (y :: rest), { s with consumed := s.consumed + 2 })
        else do
          let s ← s.put (UInt8.ofNat (strtoulHex [x, y])) 3
          .ok (some rest, s)
      | _ => .ok (none, s)
    else if c = 13 then
      match rest with
      | _ :: rest => do
        let s ← s.put newline 2
        .ok (some rest, s)
      | [] => .ok (none, s)
    else do
      let s ← s.put c 1
      .ok (some rest, s)

/-- The loop of `dico_qp_decode`, over the input that is left, with the
number of rounds it may take. -/
def loop : ℕ → Bytes → QpDecode → Except Fault QpDecode
  | 0, _, _ => .error .loop
  | _ + 1, [], s => .ok s
  | fuel + 1, c :: rest, s =>
    if s.nbytes < s.obuf.length then do
      match ← s.round c rest with
      | (none, s) => .ok s
      | (some rest, s) => loop fuel rest s
    else .ok s

end QpDecode

/-- `dico_qp_decode`. -/
def dicoQpDecode : Decoder := fun inp obuf => do
  let s ← QpDecode.loop (inp.length + 1) inp ⟨obuf, 0, 0, []⟩
  .ok (s.consumed - s.blanks.length, s.obuf, s.nbytes)

/-! ## The stream -/

/-- `struct filter_stream` on the reading side, and the flag `_STR_EOF` of
the stream around it. -/
structure DecodeStream where
  transport : Source
  buf : Bytes
  level : ℕ
  minLevel : ℕ
  xcode : Decoder
  eof : Bool

/-- The buffer as `malloc` returns it. -/
abbrev Junk := { buf : Bytes // buf.length = filterBsize }

/-- The blocks of successive calls, of more than three bytes each. -/
abbrev DecodeCalls := ℕ → { buf : Bytes // 3 < buf.length }

namespace DecodeStream

/-- `filter_stream_create` for decoding. -/
def create (junk : Junk) (str : Source) (minLevel : ℕ) (xcode : Decoder) : DecodeStream :=
  ⟨str, junk.1, 0, minLevel, xcode, false⟩

/-- `dico_codec_stream_create` for decoding, with
`dico_base64_stream_create` and `dico_qp_stream_create`. -/
def codecCreate (junk : Junk) (encoding : Bytes) (str : Source) : Option DecodeStream :=
  if encoding = ascii "base64" then some (create junk str 3 fltBase64Decode)
  else if encoding = ascii "quoted-printable" then some (create junk str 4 dicoQpDecode)
  else none

/-- The first half of `filter_read`: a read where the level is low. The
bytes go behind those that are there, but the level is then the number of
them alone. -/
def fill (ds : DecodeStream) : Except Fault DecodeStream :=
  if ds.level < ds.minLevel then
    let (data, transport) := ds.transport.read (filterBsize - ds.level)
    match Memory.poke ds.buf ds.level data with
    | none => .error .bounds
    | some buf => .ok { ds with transport := transport, buf := buf, level := data.length }
  else .ok ds

/-- The second half: the bytes in use are decoded, and those that are left
go to the front. -/
def decodeLevel (ds : DecodeStream) (obuf : Bytes) : Except Fault (Bytes × DecodeStream) :=
  if ds.level = 0 then .ok ([], ds)
  else do
    let (rc, obuf, rdsize) ← ds.xcode (ds.buf.take ds.level) obuf
    match Memory.poke ds.buf 0 ((ds.buf.take ds.level).drop rc), Memory.peek obuf 0 rdsize with
    | some buf, some out => .ok (out, { ds with buf := buf, level := rc })
    | _, _ => .error .bounds

/-- `filter_read`. -/
def filterRead (ds : DecodeStream) (obuf : Bytes) : Except Fault (Bytes × DecodeStream) := do
  let ds ← ds.fill
  ds.decodeLevel obuf

/-- `dico_stream_read`, of a stream without a buffer. -/
def read (ds : DecodeStream) (obuf : Bytes) : Except Fault (Bytes × DecodeStream) :=
  if ds.eof ∨ obuf = [] then .ok ([], ds)
  else do
    let (out, ds) ← ds.filterRead obuf
    .ok (out, if out = [] then { ds with eof := true } else ds)

/-- Calls, from the `k`-th on, up to the one that returns nothing, with
the number of calls that may be made. -/
def drain (calls : DecodeCalls) : ℕ → ℕ → DecodeStream → Except Fault Bytes
  | 0, _, _ => .error .loop
  | fuel + 1, k, ds => do
    let (out, ds) ← ds.read (calls k).1
    if out = [] then .ok []
    else
      let more ← drain calls fuel (k + 1) ds
      .ok (out ++ more)

end DecodeStream

end Dico
