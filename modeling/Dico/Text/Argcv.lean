import Dico.Common.QuotedPrintable
import Dico.Text.Cstr
import Mathlib.Data.List.DropRight
/-!
# Argument vectors

`argcv_string` makes one string of a list of words and `argcv_get` takes it
apart again. A word is put between double quotes if it is empty or has a
blank or a double quote in it, and what cannot be printed is escaped. The
scanner has a token go on over whatever stands between two quotes of one
kind, and what was put between double quotes is copied as it is.
-/

namespace Dico

/-- How a call ends without words. -/
inductive ArgcvError
  /-- A size has no value as an `int`. -/
  | range
  /-- The execution goes wrong. -/
  | fault (f : Fault)
  deriving DecidableEq

/-- `isws`. -/
def isws (c : UInt8) : Prop := c = 32 ∨ c = 9 ∨ c = 10

instance : DecidablePred isws := fun c => inferInstanceAs (Decidable (c = 32 ∨ _))

/-- `isdelim`: the terminating null is found in every string. -/
def isdelim (delim : Bytes) (c : UInt8) : Prop := c ∈ delim ∨ c = 0

instance (delim : Bytes) : DecidablePred (isdelim delim) := fun c =>
  inferInstanceAs (Decidable (c ∈ delim ∨ _))

/-- `isprint`, in the C locale. -/
def isprint (c : UInt8) : Prop := 32 ≤ c ∧ c ≤ 126

instance : DecidablePred isprint := fun c => inferInstanceAs (Decidable (32 ≤ c ∧ _))

/-! ## Quoting -/

/-- `argcv_quoting_style`. -/
inductive ArgcvQuotingStyle
  | octal
  | hex
  deriving DecidableEq

/-- `quote_transtab`, in pairs. -/
def argcvTranstab : List (UInt8 × UInt8) :=
  [(92, 92), (97, 7), (98, 8), (102, 12), (110, 10), (114, 13), (116, 9)]

/-- `argcv_unquote_char`. -/
def argcvUnquoteChar (c : UInt8) : UInt8 :=
  ((argcvTranstab.find? fun p => p.1 == c).map Prod.snd).getD c

/-- `argcv_quote_char`, which goes over the table from its end. -/
def argcvQuoteChar (c : UInt8) : Option UInt8 :=
  (argcvTranstab.reverse.find? fun p => p.2 == c).map Prod.fst

/-- What is copied as it is. -/
def isPlain (c : UInt8) : Prop := c ≠ 9 ∧ c ≠ 92 ∧ isprint c

instance : DecidablePred isPlain := fun c => inferInstanceAs (Decidable (c ≠ 9 ∧ _))

/-- The bytes that one byte adds to the length. -/
def quotedCharLength (style : ArgcvQuotingStyle) (c : UInt8) : ℕ :=
  if c = 32 then 1
  else if c = 34 then 2
  else if isPlain c then 1
  else
    match style with
    | .octal => if (argcvQuoteChar c).isSome then 2 else 4
    | .hex => 3

/-- `argcv_quoted_length`, with whether quotes are needed. -/
def argcvQuotedLength (style : ArgcvQuotingStyle) (str : Bytes) : ℕ × Bool :=
  if str = [] then (0, true)
  else ((str.map (quotedCharLength style)).sum, decide (32 ∈ str ∨ 34 ∈ str))

/-- `%03o`. -/
def octalDigits (c : UInt8) : Bytes := [48 + c / 64, 48 + c / 8 % 8, 48 + c % 8]

/-- What one byte is copied as. -/
def quoteCopyChar (style : ArgcvQuotingStyle) (c : UInt8) : Bytes :=
  if c = 34 then [92, c]
  else if isPlain c then [c]
  else
    match style with
    | .octal =>
      match argcvQuoteChar c with
      | some d => [92, d]
      | none => 92 :: octalDigits c
    | .hex =>
      [37, Qp.hexDigit (c.toNat / 16), Qp.hexDigit (c.toNat % 16)]

/-- `argcv_quote_copy`. -/
def argcvQuoteCopy (style : ArgcvQuotingStyle) (src : Bytes) : Bytes :=
  src.flatMap (quoteCopyChar style)

/-- The loop of `argcv_string`, with what is in the buffer up to `j`. -/
def argcvStringLoop (style : ArgcvQuotingStyle) (i : ℕ) (buffer : Bytes) :
    List Bytes → Except ArgcvError Bytes
  | [] => .ok buffer
  | arg :: argv =>
    let (toklen, quote) := argcvQuotedLength style arg
    if 2 ^ 31 ≤ toklen then .error .range
    else
      let buffer := if i ≠ 0 then buffer ++ [32] else buffer
      let buffer := if quote then buffer ++ [34] else buffer
      -- the next byte is written behind `toklen` bytes, however many were copied
      let buffer := (buffer ++ argcvQuoteCopy style arg).take (buffer.length + toklen)
      let buffer := if quote then buffer ++ [34] else buffer
      argcvStringLoop style (i + 1) buffer argv

/-- `argcv_string`. -/
def argcvString (style : ArgcvQuotingStyle) (argv : List Bytes) : Except ArgcvError Bytes := do
  let buffer ← argcvStringLoop style 0 [] argv
  .ok (buffer.rdropWhile fun c => decide (isSpace c))

/-! ## Scanning -/

/-- How far behind a quote the next one of its kind is. -/
def closeQuote (q : UInt8) : Bytes → Option ℕ
  | [] => none
  | c :: s =>
    if c = q then some 0
    else if c = 92 then
      match s with
      | [] => none
      | _ :: s => (closeQuote q s).map (· + 2)
    else (closeQuote q s).map (· + 1)

/-- How long the token is that a string begins with. -/
def tokenSpan (delim : Bytes) (s : Bytes) : ℕ :=
  match s with
  | [] => 0
  | c :: s =>
    if c = 92 then
      match s with
      | [] => 1
      | _ :: s => 2 + tokenSpan delim s
    else if c = 39 ∨ c = 34 then
      match closeQuote c s with
      | some j => j + 2 + tokenSpan delim (s.drop (j + 1))
      | none => 1 + tokenSpan delim s
    else if isws c ∨ isdelim delim c then 0
    else 1 + tokenSpan delim s
termination_by s.length

/-- What `struct argcv_info` has that stays as it is. -/
structure ArgcvCommand where
  len : ℕ
  command : Bytes
  delim : Bytes
  comment : Bytes
  returnDelims : Bool

/-- And what changes. -/
structure ArgcvInfo where
  start : ℕ
  stop : ℕ
  save : ℕ
  finishPos : ℕ

namespace ArgcvCommand

variable (ap : ArgcvCommand)

/-- `command[i]`. -/
def charAt (i : ℕ) : UInt8 := ap.command.getD i 0

/-- What is to be scanned from a place on. -/
def behindPlace (i : ℕ) : Bytes := (ap.command.take ap.len).drop i

/-- The first place from another on where a byte is not of some kind. -/
def skip (p : UInt8 → Bool) (i : ℕ) : ℕ := i + ((ap.behindPlace i).takeWhile p).length

end ArgcvCommand

/-- The loop of `argcv_scan`. -/
def argcvScanLoop (ap : ArgcvCommand) : ℕ → ArgcvInfo → Except ArgcvError (ℕ × ArgcvInfo)
  | 0, _ => .error (.fault .loop)
  | fuel + 1, info =>
    if info.save ≥ ap.len then .ok (info.save + 1, info)
    else
      let start := ap.skip (fun c => decide (isws c)) info.save
      let info := { info with start := start }
      let c := ap.charAt start
      if isdelim ap.delim c ∧ ¬ ap.returnDelims then
        argcvScanLoop ap fuel
          { info with save := ap.skip (fun c => decide (isdelim ap.delim c)) start }
      else
        let stop := if isdelim ap.delim c then start
          else start + tokenSpan ap.delim (ap.behindPlace start) - 1
        let info := { info with stop := stop, save := stop + 1, finishPos := stop + 1 }
        if info.save ≤ ap.len ∧ (c ∈ ap.comment ∨ c = 0) then
          argcvScanLoop ap fuel
            { info with
              finishPos := start
              save := ap.skip (fun c => decide (c ≠ 10)) info.save }
        else .ok (info.save, info)

/-- `argcv_scan`. -/
def argcvScan (ap : ArgcvCommand) (info : ArgcvInfo) : Except ArgcvError (ℕ × ArgcvInfo) :=
  argcvScanLoop ap (ap.len + 2) info

/-! ## Unquoting -/

/-- `to_num`, for a byte below 128. -/
def toNum (c : UInt8) : ℕ :=
  if 48 ≤ c ∧ c ≤ 57 then c.toNat - 48
  else if 65 ≤ c ∧ c ≤ 70 then c.toNat - 55
  else if 97 ≤ c ∧ c ≤ 102 then c.toNat - 87
  else 255

/-- `xtonum`: the value of at most `cnt` digits, and how many there are. -/
def xtonum (base cnt : ℕ) (src : Bytes) : ℕ × ℕ :=
  let digits := (src.take cnt).takeWhile fun c => decide (c ≤ 127 ∧ toNum c < base)
  (digits.foldl (fun val c => val * base + toNum c) 0, digits.length)

/-- Whether a quote of the kind follows before the terminating null, which
a backslash in front of it hides. -/
def quoteAhead (q : UInt8) : Bytes → Except ArgcvError Bool
  | [] => .ok false
  | c :: s =>
    if c = q then .ok true
    else if c = 92 then
      match s with
      | [] => .error (.fault .bounds)
      | _ :: s => quoteAhead q s
    else quoteAhead q s

/-- The case of `argcv_unquote_copy` behind a backslash, with `n` bytes
left there: what is copied, and how many bytes it stands for. -/
def unquoteEscape (n : ℕ) (src : Bytes) : Bytes × ℕ :=
  let c := src.headD 0
  if c = 120 ∨ c = 88 then
    if n < 2 then ([92, c], 1)
    else
      let (val, off) := xtonum 16 2 (src.drop 1)
      if off = 0 then ([92, c], 1) else ([UInt8.ofNat val], off + 1)
  else if 48 ≤ c ∧ c ≤ 57 then
    if n < 1 then ([92, c], 1)
    else
      let (val, off) := xtonum 8 3 src
      if off = 0 then ([92, c], 1) else ([UInt8.ofNat val], off)
  else ([argcvUnquoteChar c], 1)

/-- `argcv_unquote_copy`, with `expect_delim` once a quote was opened. -/
def argcvUnquoteCopy (expect : Option UInt8) (n : ℕ) (src : Bytes) : Except ArgcvError Bytes :=
  match n, src with
  | 0, _ => .ok []
  | _ + 1, [] => .error (.fault .bounds)
  | n + 1, c :: s =>
    if c = 39 ∨ c = 34 then
      match expect with
      | none => do
        if ← quoteAhead c s then argcvUnquoteCopy (some c) n s
        else
          let dst ← argcvUnquoteCopy none n s
          .ok (c :: dst)
      | some q =>
        if q = c then argcvUnquoteCopy (some q) n s
        else do
          let dst ← argcvUnquoteCopy (some q) n s
          .ok (c :: dst)
    else if c = 92 then do
      let (out, used) := unquoteEscape n s
      let dst ← argcvUnquoteCopy expect (n - used) (s.drop used)
      .ok (out ++ dst)
    else do
      let dst ← argcvUnquoteCopy expect n s
      .ok (c :: dst)
termination_by n

/-- What is copied of a token into a new block. -/
def argcvTokenCopy (ap : ArgcvCommand) (info : ArgcvInfo) : Except ArgcvError Bytes :=
  let src := ap.command.drop info.start
  let n := info.stop - info.start + 1
  if (ap.charAt info.start = 34 ∨ ap.charAt info.stop = 39) ∧
      ap.charAt info.stop = ap.charAt info.start then
    .ok (if info.start < info.stop then (src.drop 1).take (n - 2) else src.take n)
  else argcvUnquoteCopy none n src

/-- A token becomes a word: the body of the loop of `argcv_get_np`. The
block has room for as many bytes as the token has, and the word ends at its
first null. -/
def argcvToken (ap : ArgcvCommand) (info : ArgcvInfo) : Except ArgcvError Bytes := do
  let dst ← argcvTokenCopy ap info
  if dst.length ≤ info.stop - info.start + 1 then .ok (dst.takeWhile (· ≠ 0))
  else .error (.fault .bounds)

/-- The first loop of `argcv_get_np`, which counts the tokens. -/
def argcvCount (ap : ArgcvCommand) : ℕ → ArgcvInfo → Except ArgcvError (ℕ × ArgcvInfo)
  | 0, _ => .error (.fault .loop)
  | fuel + 1, info => do
    let (save, info) ← argcvScan ap info
    if save ≤ ap.len then
      let (argc, info) ← argcvCount ap fuel info
      .ok (argc + 1, info)
    else .ok (0, info)

/-- The second loop, which copies them. -/
def argcvCopy (ap : ArgcvCommand) : ℕ → ArgcvInfo → Except ArgcvError (List Bytes × ArgcvInfo)
  | 0, info => .ok ([], info)
  | argc + 1, info => do
    let (_, info) ← argcvScan ap info
    let arg ← argcvToken ap info
    let (argv, info) ← argcvCopy ap argc info
    .ok (arg :: argv, info)

/-- `argcv_get_np`: the words, and where it stopped. -/
def argcvGetNp (command : Bytes) (len : ℕ) (delim cmnt : Option Bytes) (returnDelims : Bool) :
    Except ArgcvError (List Bytes × ℕ) := do
  let ap : ArgcvCommand := ⟨len, command, delim.getD [], cmnt.getD [], returnDelims⟩
  let (argc, info) ← argcvCount ap (len + 2) ⟨0, 0, 0, 0⟩
  let (argv, info) ← argcvCopy ap argc { info with save := 0 }
  .ok (argv, info.finishPos)

/-- `argcv_get_n`. -/
def argcvGetN (command : Bytes) (len : ℕ) (delim cmnt : Option Bytes) :
    Except ArgcvError (List Bytes) := do
  let (argv, _) ← argcvGetNp command len delim cmnt true
  .ok argv

/-- `argcv_get`. -/
def argcvGet (command : Bytes) (delim cmnt : Option Bytes) : Except ArgcvError (List Bytes) :=
  if 2 ^ 31 ≤ command.length then .error .range
  else argcvGetN command command.length delim cmnt

end Dico
