import Dico.Common.Memory
/-!
# C strings

Strings are lists of bytes without the terminating null. The comparisons
of `c-strcase.h`, the UTF-8 coder and decoder of `lib/utf8.c`, and
`utf8_quote`.
-/

namespace Dico

/-- A string literal of the source. -/
def ascii (s : String) : Bytes := s.toList.map fun c => UInt8.ofNat c.toNat

/-- A number as `%lu` and `%d` print it. -/
def decimal (n : ℕ) : Bytes := ascii (toString n)

/-- `c_tolower`. -/
def cTolower (c : UInt8) : UInt8 := if 65 ≤ c ∧ c ≤ 90 then c + 32 else c

/-- `c_strcasecmp (a, b) == 0`. -/
def cStrcaseeq (a b : Bytes) : Bool := a.map cTolower == b.map cTolower

/-- What a run over a literal shows of each of its bytes. -/
theorem forall_mem_of_all {P : UInt8 → Prop} [DecidablePred P] {s : Bytes}
    (h : (s.all fun b => decide (P b)) = true) : ∀ b ∈ s, P b :=
  fun b hb => of_decide_eq_true (List.all_eq_true.1 h b hb)

/-- A string in memory is read up to its null. -/
theorem takeWhile_ne_zero {s : Bytes} (h : 0 ∉ s) (t : Bytes) :
    (s ++ 0 :: t).takeWhile (· ≠ 0) = s := by
  have hs : ∀ b ∈ s, decide (b ≠ 0) = true := fun b hb =>
    decide_eq_true fun h₀ => h (h₀ ▸ hb)
  rw [List.takeWhile_append_of_pos hs, List.takeWhile_cons_of_neg (by decide), List.append_nil]

/-- Nothing behind a null is read. -/
theorem takeWhile_append_zero (s t : Bytes) :
    (s ++ 0 :: t).takeWhile (· ≠ 0) = s.takeWhile (· ≠ 0) := by
  induction s with
  | nil => rfl
  | cons b s ih =>
    rw [List.cons_append, List.takeWhile_cons, List.takeWhile_cons, ih]

/-! ## UTF-8 -/

/-- `nextc`: a null byte ends the data. -/
def nextc : Bytes → Option (ℕ × Bytes)
  | [] => none
  | b :: r => if b = 0 then none else some (b.toNat, r)

/-- Whether a byte continues a character. -/
def isTrail (b : ℕ) : Prop := b ^^^ 0x80 < 0x40

instance : DecidablePred isTrail := fun b => inferInstanceAs (Decidable (b ^^^ 0x80 < 0x40))

/-- `utf8_mbtowc`: a code point and the number of bytes it takes. -/
def utf8Mbtowc (r : Bytes) : Option (ℕ × ℕ) := do
  let (s₀, r) ← nextc r
  if s₀ < 0x80 then some (s₀, 1)
  else if s₀ < 0xc2 then none
  else if s₀ < 0xe0 then do
    let (s₁, _) ← nextc r
    if isTrail s₁ then some ((s₀ &&& 0x1f) <<< 6 ||| (s₁ ^^^ 0x80), 2) else none
  else if s₀ < 0xf0 then do
    let (s₁, r) ← nextc r
    let (s₂, _) ← nextc r
    if isTrail s₁ ∧ isTrail s₂ ∧ (0xe1 ≤ s₀ ∨ 0xa0 ≤ s₁) then
      some ((s₀ &&& 0x0f) <<< 12 ||| (s₁ ^^^ 0x80) <<< 6 ||| (s₂ ^^^ 0x80), 3)
    else none
  else if s₀ < 0xf8 then do
    let (s₁, r) ← nextc r
    let (s₂, r) ← nextc r
    let (s₃, _) ← nextc r
    if isTrail s₁ ∧ isTrail s₂ ∧ isTrail s₃ ∧ (0xf1 ≤ s₀ ∨ 0x90 ≤ s₁) then
      some ((s₀ &&& 0x07) <<< 18 ||| (s₁ ^^^ 0x80) <<< 12 ||| (s₂ ^^^ 0x80) <<< 6 |||
        (s₃ ^^^ 0x80), 4)
    else none
  else none

/-- The low six bits of a code point, as a byte that continues a character. -/
def trailByte (wc : ℕ) : UInt8 := UInt8.ofNat (0x80 ||| (wc &&& 0x3f))

/-- The cases of `utf8_wctomb`, each of which falls through to the one
below it. -/
def wctombCase : ℕ → ℕ → Bytes
  | 0, wc => [UInt8.ofNat wc]
  | 1, wc => wctombCase 0 (wc >>> 6 ||| 0xc0) ++ [trailByte wc]
  | 2, wc => wctombCase 1 (wc >>> 6 ||| 0x800) ++ [trailByte wc]
  | 3, wc => wctombCase 2 (wc >>> 6 ||| 0x10000) ++ [trailByte wc]
  | 4, wc => wctombCase 3 (wc >>> 6 ||| 0x200000) ++ [trailByte wc]
  | _ + 5, wc => wctombCase 4 (wc >>> 6 ||| 0x4000000) ++ [trailByte wc]

/-- `utf8_wctomb`. -/
def utf8Wctomb (wc : ℕ) : Option Bytes :=
  if wc < 0x80 then some (wctombCase 0 wc)
  else if wc < 0x800 then some (wctombCase 1 wc)
  else if wc < 0x10000 then some (wctombCase 2 wc)
  else if wc < 0x200000 then some (wctombCase 3 wc)
  else if wc < 0x4000000 then some (wctombCase 4 wc)
  else if wc ≤ 0x7fffffff then some (wctombCase 5 wc)
  else none

/-- The loop of `utf8_mbstr_to_wc`; every character takes a byte of the
budget. -/
def mbstrLoop : ℕ → Bytes → Option (List ℕ)
  | _, [] => some []
  | 0, _ :: _ => none
  | fuel + 1, b :: r => do
    let (wc, n) ← utf8Mbtowc (b :: r)
    let ws ← mbstrLoop fuel ((b :: r).drop n)
    some (wc :: ws)

/-- `utf8_mbstr_to_wc`. -/
def utf8MbstrToWc (str : Bytes) : Option (List ℕ) := mbstrLoop str.length str

/-- `utf8_wc_to_mbstr`. -/
def utf8WcToMbstr : List ℕ → Option Bytes
  | [] => some []
  | wc :: ws => do
    let r ← utf8Wctomb wc
    let s ← utf8WcToMbstr ws
    some (r ++ s)

/-- `utf8_wc_quote`. -/
def utf8WcQuote (ws : List ℕ) : List ℕ :=
  ws.flatMap fun c => if c = 92 ∨ c = 34 then [92, c] else [c]

/-- `utf8_quote`: it fails on text that is not UTF-8. -/
def utf8Quote (str : Bytes) : Option Bytes := do
  let ws ← utf8MbstrToWc str
  utf8WcToMbstr (utf8WcQuote ws)

example : utf8Quote (ascii "a\"b") = some (ascii "a\\\"b") := by decide +kernel

example : utf8Quote [0xff] = none := by decide

end Dico
