import Dico.Reply.Ostream
import Dico.Common.Base64
/-!
# Encoding streams

The writing side of `lib/fltstream.c`, and the base64 encoder of
`lib/base64.c`. A filter stream is unbuffered; what is written to it is
encoded into a buffer of its own, which is passed on to another stream in
lines of bounded length. Bytes too few to encode wait in a side buffer.
The valid parts of the two buffers are lists, so that `level` and
`inlevel` are their lengths.
-/

namespace Dico

open DicoStream

/-- `FILTER_BSIZE`. -/
def filterBsize : ℕ := 2048

/-- An encoder: of some input, with room for so many bytes of output, the
number of bytes it consumes and the output. With the whole buffer free it
consumes something of any input. -/
structure Xcode where
  run : Bytes → ℕ → ℕ × Bytes
  progress : ∀ inp, inp ≠ [] → 0 < (run inp filterBsize).1

/-- `struct filter_stream`. -/
structure FilterStream (τ : Type) where
  transport : τ
  buf : Bytes
  minLevel : ℕ
  maxLineLength : ℕ
  lineLength : ℕ
  inbuf : Bytes
  deriving DecidableEq, Repr

namespace FilterStream

variable {τ : Type} (S : Sink τ) (X : Xcode)

/-- The length of the next piece of a line, and whether a newline of the
input is skipped behind it. -/
def pieceLength (fs : FilterStream τ) (buf : Bytes) : ℕ × Bool :=
  let rest := min (fs.maxLineLength - fs.lineLength) buf.length
  if newline ∈ buf then
    if rest < buf.idxOf newline then (rest, false) else (buf.idxOf newline, true)
  else (rest, false)

/-- The end of a line that got full. -/
def breakLine (fs : FilterStream τ) : ℕ × FilterStream τ :=
  if fs.lineLength = fs.maxLineLength then
    let r := S.write fs.transport [newline]
    (r.1, { fs with lineLength := 0, transport := r.2 })
  else (0, fs)

/-- The loop of `filter_flush`: one piece of a line a round, and at least
one byte. -/
def flushPieces : ℕ → FilterStream τ → Bytes → ℕ × FilterStream τ
  | 0, fs, _ => (0, fs)
  | fuel + 1, fs, buf =>
    if buf.length = 0 then (0, fs)
    else
      let (len, skip) := fs.pieceLength buf
      let r := S.write fs.transport (buf.take len)
      if r.1 ≠ 0 then (1, { fs with transport := r.2 })
      else
        let (rc, fs) := breakLine S { fs with transport := r.2, lineLength := fs.lineLength + len }
        if rc ≠ 0 then (1, fs)
        else flushPieces fuel fs (buf.drop (if skip then len + 1 else len))

/-- `filter_flush`. -/
def flush (fs : FilterStream τ) : ℕ × FilterStream τ :=
  if fs.buf.length = 0 then (0, fs)
  else if fs.maxLineLength = 0 then
    let r := S.write fs.transport fs.buf
    (r.1, if r.1 = 0 then { fs with transport := r.2, buf := [] } else { fs with transport := r.2 })
  else
    let (rc, fs') := flushPieces S fs.buf.length fs fs.buf
    (rc, if rc = 0 then { fs' with buf := [] } else fs')

/-- A buffer too full for the smallest output is flushed first. -/
def makeRoom (fs : FilterStream τ) : ℕ × FilterStream τ :=
  if filterBsize - fs.minLevel ≤ fs.buf.length then fs.flush S else (0, fs)

/-- `filter_write0`: its value, the number of bytes consumed, and the
stream. The loop is left in its second round at the latest, since the
buffer is empty by then. -/
def write0 (fs : FilterStream τ) (inp : Bytes) : ℕ × ℕ × FilterStream τ :=
  let (rc, fs) := fs.makeRoom S
  if rc ≠ 0 then (rc, 0, fs)
  else
    let r := X.run inp (filterBsize - fs.buf.length)
    if r.1 = 0 then
      let (rc, fs) := fs.flush S
      if rc ≠ 0 then (rc, 0, fs)
      else
        let r := X.run inp (filterBsize - fs.buf.length)
        (0, r.1, { fs with buf := fs.buf ++ r.2 })
    else (0, r.1, { fs with buf := fs.buf ++ r.2 })

/-- The end of `filter_write`: what is left of the input, behind `ret`
bytes that are dealt with. -/
def writeRest (fs : FilterStream τ) (ret : ℕ) (buf : Bytes) : WriteReply × FilterStream τ :=
  if buf.length = 0 then (.ok ret, fs)
  else
    let (rc, wrs, fs) := fs.write0 S X buf
    (if h : rc = 0 then .ok (ret + wrs) else .fail ⟨rc, h⟩, fs)

/-- A full side buffer is encoded, and the rest of the input behind it. -/
def drainSide (fs : FilterStream τ) (ret : ℕ) (buf : Bytes) : WriteReply × FilterStream τ :=
  let (rc, wrs, fs) := fs.write0 S X fs.inbuf
  if h : rc ≠ 0 then (.fail ⟨rc, h⟩, fs)
  else if wrs ≠ fs.inbuf.length then (.fail ⟨1, Nat.one_ne_zero⟩, fs)
  else { fs with inbuf := [] }.writeRest S X ret buf

/-- The input goes through the side buffer first. -/
def writeSide (fs : FilterStream τ) (buf : Bytes) : WriteReply × FilterStream τ :=
  let rest := min (fs.minLevel - fs.inbuf.length) buf.length
  let fs := { fs with inbuf := fs.inbuf ++ buf.take rest }
  if fs.inbuf.length < fs.minLevel then (.ok rest, fs)
  else fs.drainSide S X rest (buf.drop rest)

/-- `filter_write`. -/
def write (fs : FilterStream τ) (buf : Bytes) : WriteReply × FilterStream τ :=
  if buf.length < fs.minLevel ∨ (0 < fs.inbuf.length ∧ fs.inbuf.length < fs.minLevel) then
    fs.writeSide S X buf
  else fs.writeRest S X 0 buf

/-- The side buffer is encoded when the stream is flushed; whether the
output then ends in a newline. -/
def flushResidue (fs : FilterStream τ) (nl : Bool) : ℕ × Bool × FilterStream τ :=
  if fs.inbuf.length = 0 then (0, nl, fs)
  else
    let (_, _, fs) := fs.write0 S X fs.inbuf
    let nl := fs.buf.getLast? == some newline
    let (rc, fs) := fs.flush S
    (rc, nl, fs)

/-- `filter_wr_flush`. -/
def wrFlush (fs : FilterStream τ) : ℕ × FilterStream τ :=
  if fs.buf.length = 0 then (0, fs)
  else
    let nl := fs.buf.getLast? == some newline
    let (rc, fs) := fs.flush S
    if rc ≠ 0 then (rc, fs)
    else
      let (rc, nl, fs) := fs.flushResidue S X nl
      if nl then (rc, fs)
      else
        let r := S.write fs.transport [newline]
        (r.1, { fs with transport := r.2 })

/-- The callbacks `filter_stream_create` sets for encoding. -/
def transportOf : Transport (FilterStream τ) where
  read := none
  write := some (write S X)
  flush := some (wrFlush S X)
  seek := none

/-- `filter_stream_create` for encoding. -/
def create (str : τ) (minLevel maxLineLength : ℕ) : DicoStream × FilterStream τ :=
  (DicoStream.create false true false, ⟨str, [], minLevel, maxLineLength, 0, []⟩)

end FilterStream

/-! ## Base64 -/

/-- `b64tab`. -/
def b64tab : Bytes :=
  [65, 66, 67, 68, 69, 70, 71, 72, 73, 74, 75, 76, 77, 78, 79, 80,
    81, 82, 83, 84, 85, 86, 87, 88, 89, 90, 97, 98, 99, 100, 101, 102,
    103, 104, 105, 106, 107, 108, 109, 110, 111, 112, 113, 114, 115, 116, 117, 118,
    119, 120, 121, 122, 48, 49, 50, 51, 52, 53, 54, 55, 56, 57, 43, 47]

/-- A character of the table. -/
def b64char (n : ℕ) : UInt8 := b64tab.getD n 0

/-- One round of `_flt_base64_encode`, given what the bytes behind the
first contribute: `c1` and `c2` are zero and `x` and `y` are `=` where
there are none. -/
def b64round (a c1 : ℕ) (x y : UInt8) : Bytes :=
  [b64char (a >>> 2), b64char (((a <<< 4) + c1) &&& 0x3f), x, y]

/-- The third character of a round. -/
def b64x (b c2 : ℕ) : UInt8 := b64char (((b <<< 2) + c2) &&& 0x3f)

/-- The rounds of `_flt_base64_encode` that find three bytes, and room for
four characters. -/
def b64rounds : ℕ → Bytes → ℕ × Bytes
  | osize, a :: b :: c :: rest =>
    if 4 ≤ osize then
      let r := b64rounds (osize - 4) rest
      (r.1 + 3, b64round a.toNat (b.toNat >>> 4) (b64x b.toNat (c.toNat >>> 6))
        (b64char (c.toNat &&& 0x3f)) ++ r.2)
    else (0, [])
  | _, _ => (0, [])

/-- `_flt_base64_encode`. An input of up to three bytes is padded, and has
one round whatever the room; it is never called without input. -/
def fltBase64Encode (inp : Bytes) (osize : ℕ) : ℕ × Bytes :=
  match inp with
  | [] => (0, [])
  | [a] => (1, b64round a.toNat 0 Base64.padding Base64.padding)
  | [a, b] => (2, b64round a.toNat (b.toNat >>> 4) (b64x b.toNat 0) Base64.padding)
  | [a, b, c] => (3, b64round a.toNat (b.toNat >>> 4) (b64x b.toNat (c.toNat >>> 6))
      (b64char (c.toNat &&& 0x3f)))
  | inp => b64rounds osize inp

/-- It consumes something where there is room for four characters. -/
theorem fltBase64Encode_pos {inp : Bytes} {osize : ℕ} (hne : inp ≠ []) (hsize : 4 ≤ osize) :
    0 < (fltBase64Encode inp osize).1 := by
  match inp with
  | [] => exact absurd rfl hne
  | [a] => exact Nat.one_pos
  | [a, b] => exact Nat.two_pos
  | [a, b, c] => exact Nat.succ_pos 2
  | a :: b :: c :: d :: rest =>
    simp only [fltBase64Encode, b64rounds, if_pos hsize]
    exact Nat.succ_pos _

/-- The encoder of the base64 stream. -/
def base64Xcode : Xcode := ⟨fltBase64Encode, fun _ h => fltBase64Encode_pos h (by decide)⟩

/-- `dico_base64_stream_create` for encoding. -/
def dicoBase64StreamCreate {τ : Type} (str : τ) : DicoStream × FilterStream τ :=
  FilterStream.create str 3 76

end Dico
