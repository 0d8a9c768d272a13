import Dico.Common.Run
import Dico.Text.Utf8
/-!
# The tokenizer

`dico_tokenize_string` of `lib/tokenize.c`, over the iterator of
`lib/utf8.c`. A string is the block of memory from its first byte on: it
ends at the first null byte, and an iterator that steps over that byte
goes on behind it. The tokens are stored one after another in one block,
each with a null behind it, and found again with `strlen`; a block that
grows is another block, and the pointers into the old one are dead.
-/

namespace Dico

/-- The space. -/
def space : UInt8 := 32

/-- The tab. -/
def tab : UInt8 := 9

/-- The double quote. -/
def doubleQuote : UInt8 := 34

/-- The single quote. -/
def singleQuote : UInt8 := 39

/-- The backslash. -/
def backslash : UInt8 := 92

/-- `ISWS`. -/
def isWs (c : UInt8) : Prop := c = space ∨ c = tab

instance : DecidablePred isWs := fun c => inferInstanceAs (Decidable (c = space ∨ c = tab))

/-- `ISQUOTE`. -/
def isQuote (c : UInt8) : Prop := c = doubleQuote ∨ c = singleQuote

instance : DecidablePred isQuote := fun c =>
  inferInstanceAs (Decidable (c = doubleQuote ∨ c = singleQuote))

/-- `quote_transtab`, in pairs. -/
def quoteTranstab : List (UInt8 × UInt8) :=
  [(backslash, backslash), (doubleQuote, doubleQuote), (97, 7), (98, 8), (102, 12), (110, 10),
    (114, 13), (116, 9)]

/-- `dico_quote_char`, which looks the table up from right to left. -/
def dicoQuoteChar (c : UInt8) : UInt8 :=
  match quoteTranstab.find? fun p => p.2 = c with
  | some p => p.1
  | none => 0

/-! ## The iterator -/

/-- `struct utf8_iterator`: the block from `curptr` on, and `curwidth`. -/
structure Utf8Iterator where
  cur : Bytes
  curwidth : ℕ
  deriving DecidableEq

namespace Utf8Iterator

variable (itr : Utf8Iterator)

/-- `*itr.curptr`. -/
def char : UInt8 := itr.cur.headD 0

/-- The width an iterator has at some bytes, when it had `width` before:
a byte that no character starts with leaves the width as it was. -/
def widthAt (width : ℕ) (cur : Bytes) : ℕ :=
  if utf8CharWidth cur = 0 then width else utf8CharWidth cur

/-- `utf8_iter0`. -/
def iter0 (cur : Bytes) (width : ℕ) : Except Fault Utf8Iterator :=
  if cur = [] then .error .bounds else .ok ⟨cur, widthAt width cur⟩

/-- `utf8_iter_end_p`. -/
def endP : Prop := itr.char = 0

instance : Decidable itr.endP := inferInstanceAs (Decidable (itr.char = 0))

/-- `utf8_iter_first`. Where no character starts with the first byte, the
width is what was on the stack, and there is no iterator here. -/
def first (str : Bytes) : Except Fault Utf8Iterator :=
  if utf8CharWidth str = 0 then .error .bounds else iter0 str 0

/-- `utf8_iter_next`. -/
def next : Except Fault Utf8Iterator :=
  if itr.endP then .ok itr else iter0 (itr.cur.drop itr.curwidth) itr.curwidth

/-- `utf8_iter_isascii`. -/
def isAscii : Prop := itr.curwidth = 1 ∧ itr.char < 0x80

instance : Decidable itr.isAscii := inferInstanceAs (Decidable (_ ∧ _))

/-- The `curwidth` bytes at `curptr`. -/
def symbol : Except Fault Bytes :=
  if itr.curwidth ≤ itr.cur.length then .ok (itr.cur.take itr.curwidth) else .error .bounds

end Utf8Iterator

/-! ## The token buffer -/

/-- `struct dico_tokbuf`: the `tb_level` bytes in use at `tb_base`, the
size of the block, which block it is of all that `realloc` made, and the
tokens, each a block and an offset into it. -/
structure DicoTokbuf where
  base : Bytes
  size : ℕ
  block : ℕ
  tokv : List (ℕ × ℕ)
  deriving DecidableEq

/-- `TKNBLOCKSIZ`. -/
def tknBlockSiz : ℕ := 256

namespace DicoTokbuf

variable (tb : DicoTokbuf)

/-- `dico_tokenize_begin`. -/
def begin : DicoTokbuf := ⟨[], 0, 0, []⟩

/-- `_dico_tkn_grow`. -/
def tknGrow (str : Bytes) : DicoTokbuf :=
  let level := tb.base.length + str.length
  if level > tb.size then
    { tb with
      base := tb.base ++ str
      size := (level + tknBlockSiz - 1) / tknBlockSiz * tknBlockSiz
      block := tb.block + 1 }
  else { tb with base := tb.base ++ str }

/-- The string a token points to. -/
def deref (ptr : ℕ × ℕ) : Except Fault Bytes :=
  if ptr.1 = tb.block then .ok ((tb.base.drop ptr.2).takeWhile (· ≠ 0)) else .error .dangling

/-- Token `i`; behind the last one there is a null pointer. -/
def token (i : ℕ) : Except Fault Bytes :=
  match tb.tokv[i]? with
  | none => .error .dangling
  | some ptr => tb.deref ptr

/-- The pointers to `argc` strings from offset `p` on. -/
def pointers : ℕ → ℕ → List (ℕ × ℕ)
  | 0, _ => []
  | argc + 1, p =>
    (tb.block, p) :: pointers argc (p + ((tb.base.drop p).takeWhile (· ≠ 0)).length + 1)

end DicoTokbuf

/-! ## The loops -/

section Tokenize

open Utf8Iterator

/-- The body of the loop over the characters of a token: what it stores,
or nothing where the token ends. -/
def tokenStep (quote : UInt8) (itr : Utf8Iterator) :
    Except Fault (Option (List Bytes) × Utf8Iterator) :=
  if itr.endP ∨ (itr.isAscii ∧ quote = 0 ∧ isWs itr.char) then .ok (none, itr)
  else if itr.isAscii ∧ itr.char = quote then do
    let itr ← itr.next
    .ok (none, itr)
  else if itr.isAscii ∧ itr.char = backslash then do
    let itr ← itr.next
    if itr.isAscii then do
      let nxt ← itr.next
      .ok (some [[dicoQuoteChar itr.char]], nxt)
    else do
      let sym ← itr.symbol
      let nxt ← itr.next
      .ok (some [[backslash], sym], nxt)
  else do
    let sym ← itr.symbol
    let nxt ← itr.next
    .ok (some [sym], nxt)

/-- The loop over the characters of a token. -/
def tokenLoop (quote : UInt8) :
    ℕ → Utf8Iterator → DicoTokbuf → Except Fault (Utf8Iterator × DicoTokbuf)
  | 0, _, _ => .error .loop
  | fuel + 1, itr, tb => do
    match ← tokenStep quote itr with
    | (none, itr) => .ok (itr, tb)
    | (some strs, itr) => tokenLoop quote fuel itr (strs.foldl DicoTokbuf.tknGrow tb)

/-- The loop over the blanks before a token. -/
def skipWs : ℕ → Utf8Iterator → Except Fault Utf8Iterator
  | 0, _ => .error .loop
  | fuel + 1, itr =>
    if ¬ itr.endP ∧ itr.isAscii ∧ isWs itr.char then itr.next >>= skipWs fuel else .ok itr

/-- The quote a token starts with, or none, and the iterator behind it. -/
def openQuote (itr : Utf8Iterator) : Except Fault (UInt8 × Utf8Iterator) :=
  if itr.isAscii ∧ isQuote itr.char then do
    let nxt ← itr.next
    .ok (itr.char, nxt)
  else .ok (0, itr)

/-- The loop over the tokens, which counts them. -/
def tokensLoop : ℕ → Utf8Iterator → DicoTokbuf → ℕ → Except Fault (DicoTokbuf × ℕ)
  | 0, _, _, _ => .error .loop
  | fuel + 1, itr, tb, argc => do
    let itr ← skipWs (itr.cur.length + 1) itr
    if itr.endP then .ok (tb, argc)
    else do
      let (quote, itr) ← openQuote itr
      let (itr, tb) ← tokenLoop quote (itr.cur.length + 1) itr tb
      tokensLoop fuel itr (tb.tknGrow [0]) (argc + 1)

/-- `dico_tokenize_string`, with the block from `str` on. The `int` counters of
the tokens are taken not to come to `2 ^ 31`. -/
def dicoTokenizeString (tb : DicoTokbuf) (str : Bytes) : Except Fault DicoTokbuf := do
  let itr ← first str
  let (tb', argc) ← tokensLoop (str.length + 1) itr tb 0
  .ok { tb' with tokv := tb'.tokv ++ tb'.pointers argc tb.base.length }

end Tokenize

end Dico
