import Dico.Common.Utf8
import Dico.Text.Strings
/-!
# The UTF-8 coder and decoder

`utf8_wctomb` and `utf8_mbtowc` are inverse to each other: the coder
writes `Utf8.encode` (`utf8Wctomb_eq`), and the decoder accepts a byte
sequence exactly when it begins with the bytes of a code point
(`utf8Mbtowc_encode`, `eq_encode_of_utf8Mbtowc`). The loops over strings
inherit it, one character at a time.
-/

namespace Dico

open Utf8 (encode trail encodeAll)

/-- `utf8_char_width`: the width the first byte announces. The end of the
string is a null byte. -/
def utf8CharWidth : Bytes → ℕ
  | [] => 1
  | p :: _ =>
    if p ≤ 0x7f then 1
    else if 0xc2 ≤ p ∧ p ≤ 0xdf then 2
    else if 0xe0 ≤ p ∧ p ≤ 0xef then 3
    else if 0xf0 ≤ p ∧ p ≤ 0xf4 then 4
    else 0

/-- `utf8_mbtowc` with its length argument, where zero stands for the
width of the first character. -/
def utf8MbtowcN (r : Bytes) (len : ℕ) : Option (ℕ × ℕ) :=
  utf8Mbtowc (r.take (if len = 0 then utf8CharWidth r else len))

/-- `utf8_wc_strlen`. -/
def utf8WcStrlen (w : List ℕ) : ℕ := (w.takeWhile (· ≠ 0)).length

/-- What `utf8_mbstr_to_wc` stores: an array cleared beforehand, of one
word for each byte of the string and one more, and the length it reports. -/
def utf8MbstrToWcN (str : Bytes) : Option (List ℕ × ℕ) := do
  let ws ← utf8MbstrToWc str
  some (ws ++ List.replicate (str.length + 1 - ws.length) 0, str.length)

/-! ## One character -/

section Character

variable {wc : ℕ}

/-- The byte the coder puts behind the others. -/
theorem trailByte_eq (x : ℕ) : trailByte x = trail x := by
  have hand : x &&& 0x3f = x % 64 := Nat.and_two_pow_sub_one_eq_mod x 6
  have hor : x % 64 ||| 1 * 2 ^ 7 = 1 * 2 ^ 7 + x % 64 := Utf8.or_mark (by omega)
  rw [trailByte, hand, Nat.or_comm, trail]
  exact congrArg UInt8.ofNat hor

/-- Two bytes of the coder. -/
theorem wctombCase_one {x : ℕ} (h : x < 0x1000) :
    wctombCase 1 x = [UInt8.ofNat (0xc0 + x / 64), trail x] := by
  have hor : x / 64 ||| 3 * 2 ^ 6 = 3 * 2 ^ 6 + x / 64 := Utf8.or_mark (by omega)
  have hshift : x >>> 6 = x / 64 := Nat.shiftRight_eq_div_pow x 6
  rw [wctombCase, wctombCase, trailByte_eq, hshift]
  exact congrArg (fun y => [UInt8.ofNat y] ++ [trail x]) hor

/-- Three. -/
theorem wctombCase_two {x : ℕ} (h : x < 0x20000) :
    wctombCase 2 x = [UInt8.ofNat (0xe0 + x / 4096), trail (x / 64), trail x] := by
  have hor : x / 64 ||| 1 * 2 ^ 11 = 1 * 2 ^ 11 + x / 64 := Utf8.or_mark (by omega)
  have hshift : x >>> 6 ||| 0x800 = 0x800 + x / 64 := by
    rw [Nat.shiftRight_eq_div_pow]
    exact hor
  have hdiv : 0xc0 + (0x800 + x / 64) / 64 = 0xe0 + x / 4096 := by omega
  have hmod : trail (0x800 + x / 64) = trail (x / 64) := by
    rw [trail, trail, show (0x800 + x / 64) % 64 = x / 64 % 64 by omega]
  rw [wctombCase, trailByte_eq, hshift, wctombCase_one (by omega), hdiv, hmod]
  rfl

/-- And four. -/
theorem wctombCase_three {x : ℕ} (h : x < 0x200000) :
    wctombCase 3 x =
      [UInt8.ofNat (0xf0 + x / 262144), trail (x / 4096), trail (x / 64), trail x] := by
  have hor : x / 64 ||| 1 * 2 ^ 16 = 1 * 2 ^ 16 + x / 64 := Utf8.or_mark (by omega)
  have hshift : x >>> 6 ||| 0x10000 = 0x10000 + x / 64 := by
    rw [Nat.shiftRight_eq_div_pow]
    exact hor
  have hdiv : 0xe0 + (0x10000 + x / 64) / 4096 = 0xf0 + x / 262144 := by omega
  have hmid : trail ((0x10000 + x / 64) / 64) = trail (x / 4096) := by
    rw [trail, trail, show (0x10000 + x / 64) / 64 % 64 = x / 4096 % 64 by omega]
  have hmod : trail (0x10000 + x / 64) = trail (x / 64) := by
    rw [trail, trail, show (0x10000 + x / 64) % 64 = x / 64 % 64 by omega]
  rw [wctombCase, trailByte_eq, hshift, wctombCase_two (by omega), hdiv, hmid, hmod]
  rfl

/-- **The coder writes the digits of the code point.** -/
theorem utf8Wctomb_eq (h : wc < 0x200000) : utf8Wctomb wc = some (encode wc) := by
  rcases Utf8.width_cases wc with h₁ | ⟨h₀, h₁⟩ | ⟨h₀, h₁⟩ | h₀
  · rw [utf8Wctomb, if_pos h₁, Utf8.encode_one h₁, wctombCase]
  · rw [utf8Wctomb, if_neg (by omega), if_pos h₁, Utf8.encode_two h₀ h₁,
      wctombCase_one (by omega)]
  · rw [utf8Wctomb, if_neg (by omega), if_neg (by omega), if_pos h₁, Utf8.encode_three h₀ h₁,
      wctombCase_two (by omega)]
  · rw [utf8Wctomb, if_neg (by omega), if_neg (by omega), if_neg (by omega), if_pos h,
      Utf8.encode_four h₀, wctombCase_three h]

/-- Reading a byte that holds a number. -/
theorem nextc_ofNat {x : ℕ} (h₀ : 0 < x) (h : x < 256) (r : Bytes) :
    nextc (UInt8.ofNat x :: r) = some (x, r) := by
  rw [nextc, if_neg (Utf8.ofNat_ne_zero h₀ h), Utf8.toNat_ofNat h]

/-- Reading a byte that continues a character. -/
theorem nextc_trail (x : ℕ) (r : Bytes) : nextc (trail x :: r) = some (0x80 + x % 64, r) :=
  nextc_ofNat (by omega) (by omega) r

/-- A marked digit continues a character. -/
theorem isTrail_add (x : ℕ) : isTrail (0x80 + x % 64) := by
  rw [isTrail, Utf8.trail_xor (by omega)]
  omega

/-- **The decoder takes back what the coder writes**, whatever follows. -/
theorem utf8Mbtowc_encode (h₀ : 1 ≤ wc) (hwc : wc < 0x200000) (r : Bytes) :
    utf8Mbtowc (encode wc ++ r) = some (wc, (encode wc).length) := by
  have htr : ∀ x, (0x80 + x % 64) ^^^ 0x80 = x % 64 := fun x => Utf8.trail_xor (by omega)
  rcases Utf8.width_cases wc with h₁ | ⟨h₂, h₁⟩ | ⟨h₂, h₁⟩ | h₂
  · rw [Utf8.encode_one h₁, utf8Mbtowc, List.singleton_append, nextc_ofNat (by omega) (by omega)]
    exact if_pos h₁
  · have hlead : (0xc0 + wc / 64) &&& 0x1f = wc / 64 :=
      Utf8.lead_and (k := 0xc0) (m := 5) (by decide) (by omega)
    have hval : (wc / 64) <<< 6 ||| wc % 64 = wc := by
      rw [Utf8.shift_or (by omega)]
      omega
    simp only [Utf8.encode_two h₂ h₁, utf8Mbtowc, List.cons_append, List.nil_append,
      nextc_ofNat (show 0 < 0xc0 + wc / 64 by omega) (by omega), nextc_trail,
      Option.bind_eq_bind, Option.bind_some, isTrail_add, htr, hlead, hval, if_true]
    rw [if_neg (by omega), if_neg (by omega), if_pos (by omega)]
    rfl
  · have hlead : (0xe0 + wc / 4096) &&& 0x0f = wc / 4096 :=
      Utf8.lead_and (k := 0xe0) (m := 4) (by decide) (by omega)
    have hval : (wc / 4096) <<< 12 ||| (wc / 64 % 64) <<< 6 ||| wc % 64 = wc := by
      rw [Utf8.shift_or_two (by omega) (by omega)]
      omega
    simp only [Utf8.encode_three h₂ h₁, utf8Mbtowc, List.cons_append, List.nil_append,
      nextc_ofNat (show 0 < 0xe0 + wc / 4096 by omega) (by omega), nextc_trail,
      Option.bind_eq_bind, Option.bind_some, isTrail_add, htr, hlead, hval, true_and]
    rw [if_neg (by omega), if_neg (by omega), if_neg (by omega), if_pos (by omega),
      if_pos (by omega)]
    rfl
  · have hlead : (0xf0 + wc / 262144) &&& 0x07 = wc / 262144 :=
      Utf8.lead_and (k := 0xf0) (m := 3) (by decide) (by omega)
    have hval : (wc / 262144) <<< 18 ||| (wc / 4096 % 64) <<< 12 ||| (wc / 64 % 64) <<< 6 |||
        wc % 64 = wc := by
      rw [Utf8.shift_or_three (by omega) (by omega) (by omega)]
      omega
    simp only [Utf8.encode_four h₂, utf8Mbtowc, List.cons_append, List.nil_append,
      nextc_ofNat (show 0 < 0xf0 + wc / 262144 by omega) (by omega), nextc_trail,
      Option.bind_eq_bind, Option.bind_some, isTrail_add, htr, hlead, hval, true_and]
    rw [if_neg (by omega), if_neg (by omega), if_neg (by omega), if_neg (by omega),
      if_pos (by omega), if_pos (by omega)]
    rfl

/-- What the decoder read when it read a byte. -/
theorem eq_cons_of_nextc {r r' : Bytes} {x : ℕ} (h : nextc r = some (x, r')) :
    ∃ b : UInt8, r = b :: r' ∧ b.toNat = x ∧ 0 < x ∧ x < 256 := by
  cases r with
  | nil => cases h
  | cons b r =>
    by_cases hb : b = 0
    · rw [nextc, if_pos hb] at h
      cases h
    · rw [nextc, if_neg hb] at h
      obtain ⟨rfl, rfl⟩ := Prod.mk.inj (Option.some.inj h)
      have hpos : b.toNat ≠ 0 := fun h0 => hb (UInt8.toNat_inj.1 h0)
      exact ⟨b, rfl, rfl, by omega, b.toNat_lt⟩

/-- The byte it went on with. -/
theorem exists_of_nextc_bind {α : Type} {r : Bytes} {f : ℕ × Bytes → Option α} {y : α}
    (h : (nextc r).bind f = some y) :
    ∃ (b : UInt8) (x : ℕ) (r' : Bytes),
      r = b :: r' ∧ b.toNat = x ∧ 0 < x ∧ x < 256 ∧ f (x, r') = some y := by
  obtain ⟨⟨x, r'⟩, hnext, h⟩ := Option.bind_eq_some_iff.1 h
  obtain ⟨b, hr, hb, hpos, hlt⟩ := eq_cons_of_nextc hnext
  exact ⟨b, x, r', hr, hb, hpos, hlt, h⟩

/-- **The decoder accepts nothing else**: what it takes for a code point
are the bytes of that code point. -/
theorem eq_encode_of_utf8Mbtowc {r : Bytes} {n : ℕ} (h : utf8Mbtowc r = some (wc, n)) :
    1 ≤ wc ∧ wc < 0x200000 ∧ n = (encode wc).length ∧ ∃ rest, r = encode wc ++ rest := by
  rw [utf8Mbtowc] at h
  obtain ⟨b₀, s₀, r₀, rfl, hb₀, hpos, hlt₀, h⟩ := exists_of_nextc_bind h
  dsimp only at h
  split_ifs at h with h₁ h₂ h₃ h₄ h₅
  · obtain ⟨rfl, rfl⟩ := Prod.mk.inj (Option.some.inj h)
    rw [Utf8.encode_one h₁]
    exact ⟨hpos, by omega, rfl, r₀, by rw [Utf8.ofNat_eq hb₀]; rfl⟩
  · obtain ⟨b₁, s₁, r₁, rfl, hb₁, -, hlt₁, h⟩ := exists_of_nextc_bind h
    dsimp only at h
    split_ifs at h with ht
    obtain ⟨hwc, rfl⟩ := Prod.mk.inj (Option.some.inj h)
    obtain ⟨x, hx, rfl⟩ := Utf8.exists_trail hlt₁ ht
    obtain ⟨y, rfl⟩ : ∃ y, s₀ = 0xc0 + y := ⟨s₀ - 0xc0, by omega⟩
    rw [show (0xc0 + y) &&& 0x1f = y from Utf8.lead_and (k := 0xc0) (m := 5) (by decide) (by omega),
      Utf8.trail_xor hx, Utf8.shift_or (by omega)] at hwc
    rw [Utf8.encode_two (by omega) (by omega)]
    refine ⟨by omega, by omega, rfl, r₁, ?_⟩
    rw [Utf8.eq_trail hb₁ (y := wc) (by omega), Utf8.ofNat_eq hb₀,
      show 0xc0 + y = 0xc0 + wc / 64 by omega]
    rfl
  · obtain ⟨b₁, s₁, r₁, rfl, hb₁, -, hlt₁, h⟩ := exists_of_nextc_bind h
    obtain ⟨b₂, s₂, r₂, rfl, hb₂, -, hlt₂, h⟩ := exists_of_nextc_bind h
    dsimp only at h
    split_ifs at h with ht
    obtain ⟨hwc, rfl⟩ := Prod.mk.inj (Option.some.inj h)
    obtain ⟨ht₁, ht₂, hlow⟩ := ht
    obtain ⟨x, hx, rfl⟩ := Utf8.exists_trail hlt₁ ht₁
    obtain ⟨z, hz, rfl⟩ := Utf8.exists_trail hlt₂ ht₂
    obtain ⟨y, rfl⟩ : ∃ y, s₀ = 0xe0 + y := ⟨s₀ - 0xe0, by omega⟩
    rw [show (0xe0 + y) &&& 0x0f = y from Utf8.lead_and (k := 0xe0) (m := 4) (by decide) (by omega),
      Utf8.trail_xor hx, Utf8.trail_xor hz, Utf8.shift_or_two hx hz] at hwc
    rw [Utf8.encode_three (by omega) (by omega)]
    refine ⟨by omega, by omega, rfl, r₂, ?_⟩
    rw [Utf8.eq_trail hb₁ (y := wc / 64) (by omega), Utf8.eq_trail hb₂ (y := wc) (by omega),
      Utf8.ofNat_eq hb₀, show 0xe0 + y = 0xe0 + wc / 4096 by omega]
    rfl
  · obtain ⟨b₁, s₁, r₁, rfl, hb₁, -, hlt₁, h⟩ := exists_of_nextc_bind h
    obtain ⟨b₂, s₂, r₂, rfl, hb₂, -, hlt₂, h⟩ := exists_of_nextc_bind h
    obtain ⟨b₃, s₃, r₃, rfl, hb₃, -, hlt₃, h⟩ := exists_of_nextc_bind h
    dsimp only at h
    split_ifs at h with ht
    obtain ⟨hwc, rfl⟩ := Prod.mk.inj (Option.some.inj h)
    obtain ⟨ht₁, ht₂, ht₃, hlow⟩ := ht
    obtain ⟨x, hx, rfl⟩ := Utf8.exists_trail hlt₁ ht₁
    obtain ⟨z, hz, rfl⟩ := Utf8.exists_trail hlt₂ ht₂
    obtain ⟨u, hu, rfl⟩ := Utf8.exists_trail hlt₃ ht₃
    obtain ⟨y, rfl⟩ : ∃ y, s₀ = 0xf0 + y := ⟨s₀ - 0xf0, by omega⟩
    rw [show (0xf0 + y) &&& 0x07 = y from Utf8.lead_and (k := 0xf0) (m := 3) (by decide) (by omega),
      Utf8.trail_xor hx, Utf8.trail_xor hz, Utf8.trail_xor hu,
      Utf8.shift_or_three hx hz hu] at hwc
    rw [Utf8.encode_four (by omega)]
    refine ⟨by omega, by omega, rfl, r₃, ?_⟩
    rw [Utf8.eq_trail hb₁ (y := wc / 4096) (by omega), Utf8.eq_trail hb₂ (y := wc / 64) (by omega),
      Utf8.eq_trail hb₃ (y := wc) (by omega), Utf8.ofNat_eq hb₀,
      show 0xf0 + y = 0xf0 + wc / 262144 by omega]
    rfl

/-- A character that is decoded within the bytes its first byte announces
is decoded at that width. -/
theorem utf8MbtowcN_encode (h₀ : 1 ≤ wc) (hwc : wc < 0x200000) {len : ℕ}
    (hlen : (encode wc).length ≤ len) (r : Bytes) :
    utf8MbtowcN (encode wc ++ r) len = some (wc, (encode wc).length) := by
  have hpos := List.length_pos_of_ne_nil (Utf8.encode_ne_nil wc)
  rw [utf8MbtowcN, if_neg (by omega), List.take_append, List.take_of_length_le hlen]
  exact utf8Mbtowc_encode h₀ hwc _

end Character

/-! ## Strings of characters -/

section Strings

variable {ws : List ℕ} {str : Bytes}

/-- The code points that the coder and the decoder share. -/
def Codepoints (ws : List ℕ) : Prop := ∀ wc ∈ ws, 1 ≤ wc ∧ wc < 0x200000

/-- The first code point, and the rest. -/
theorem codepoints_cons {wc : ℕ} :
    Codepoints (wc :: ws) ↔ (1 ≤ wc ∧ wc < 0x200000) ∧ Codepoints ws := List.forall_mem_cons

/-- `utf8_wc_to_mbstr` writes the code points one after another. -/
theorem utf8WcToMbstr_eq (h : ∀ wc ∈ ws, wc < 0x200000) :
    utf8WcToMbstr ws = some (ws.flatMap encode) := by
  induction ws with
  | nil => rfl
  | cons wc ws ih =>
    obtain ⟨hwc, hws⟩ := List.forall_mem_cons.1 h
    rw [utf8WcToMbstr, utf8Wctomb_eq hwc, ih hws]
    rfl

/-- `utf8_mbstr_to_wc` reads them back, within a budget of one character
for each byte. -/
theorem mbstrLoop_encode (h : Codepoints ws) {fuel : ℕ}
    (hfuel : (ws.flatMap encode).length ≤ fuel) :
    mbstrLoop fuel (ws.flatMap encode) = some ws := by
  induction ws generalizing fuel with
  | nil => rw [List.flatMap_nil, mbstrLoop]
  | cons wc ws ih =>
    obtain ⟨⟨hwc₀, hwc⟩, hws⟩ := codepoints_cons.1 h
    have hdec := utf8Mbtowc_encode hwc₀ hwc (ws.flatMap encode)
    have hdrop : (encode wc ++ ws.flatMap encode).drop (encode wc).length = ws.flatMap encode :=
      List.drop_left
    have hpos := List.length_pos_of_ne_nil (Utf8.encode_ne_nil wc)
    rw [List.flatMap_cons] at hfuel ⊢
    rw [List.length_append] at hfuel
    obtain ⟨fuel, rfl⟩ : ∃ k, fuel = k + 1 := ⟨fuel - 1, by omega⟩
    obtain ⟨b, r, hbr⟩ := Utf8.encode_append wc (ws.flatMap encode)
    rw [hbr] at hdec hdrop ⊢
    rw [mbstrLoop, hdec]
    have hrest : mbstrLoop fuel (ws.flatMap encode) = some ws := ih hws (by omega)
    simp only [Option.bind_eq_bind, Option.bind_some, hdrop, hrest]

/-- What the loop accepts is the code points it returns, one after
another. -/
theorem eq_encode_of_mbstrLoop {fuel : ℕ} (h : mbstrLoop fuel str = some ws) :
    Codepoints ws ∧ str = ws.flatMap encode := by
  induction fuel generalizing str ws with
  | zero =>
    cases str with
    | nil =>
      obtain rfl := Option.some.inj h
      exact ⟨List.forall_mem_nil _, rfl⟩
    | cons b r => cases h
  | succ fuel ih =>
    cases str with
    | nil =>
      obtain rfl := Option.some.inj h
      exact ⟨List.forall_mem_nil _, rfl⟩
    | cons b r =>
      rw [mbstrLoop, Option.bind_eq_bind, Option.bind_eq_some_iff] at h
      obtain ⟨⟨wc, n⟩, hdec, h⟩ := h
      rw [Option.bind_eq_bind, Option.bind_eq_some_iff] at h
      obtain ⟨ws', hloop, h⟩ := h
      obtain rfl := Option.some.inj h
      obtain ⟨hwc₀, hwc, rfl, rest, hbr⟩ := eq_encode_of_utf8Mbtowc hdec
      rw [hbr, List.drop_left] at hloop
      obtain ⟨hws, hrest⟩ := ih hloop
      exact ⟨codepoints_cons.2 ⟨⟨hwc₀, hwc⟩, hws⟩, by rw [hbr, hrest, List.flatMap_cons]⟩

/-- **What `utf8_mbstr_to_wc` makes of a string.** -/
theorem utf8MbstrToWc_iff :
    utf8MbstrToWc str = some ws ↔ Codepoints ws ∧ str = ws.flatMap encode := by
  constructor
  · exact eq_encode_of_mbstrLoop
  · rintro ⟨hws, rfl⟩
    exact mbstrLoop_encode hws le_rfl

/-- **Code points are read off one at a time**: what a string of them
begins with it continues behind. -/
theorem flatMap_encode_append {A B : List ℕ} {r : Bytes} (hA : Codepoints A) (hB : Codepoints B)
    (h : A.flatMap encode ++ r = B.flatMap encode) : ∃ C, B = A ++ C ∧ r = C.flatMap encode := by
  induction A generalizing B with
  | nil => exact ⟨B, rfl, h⟩
  | cons a A ih =>
    obtain ⟨ha, hA'⟩ := codepoints_cons.1 hA
    rw [List.flatMap_cons, List.append_assoc] at h
    have hdec := utf8Mbtowc_encode ha.1 ha.2 (A.flatMap encode ++ r)
    cases B with
    | nil =>
      rw [List.flatMap_nil] at h
      exact absurd (List.append_eq_nil_iff.1 h).1 (Utf8.encode_ne_nil a)
    | cons b B =>
      obtain ⟨hb, hB'⟩ := codepoints_cons.1 hB
      rw [List.flatMap_cons] at h
      rw [h, utf8Mbtowc_encode hb.1 hb.2] at hdec
      obtain ⟨rfl, -⟩ := Prod.mk.inj (Option.some.inj hdec)
      obtain ⟨C, rfl, hC⟩ := ih hA' hB' (List.append_cancel_left h)
      exact ⟨C, rfl, hC⟩

/-- A code point takes up at least one byte, so the array has room for
all of them and for the zero that ends it. -/
theorem length_le_encode (ws : List ℕ) : ws.length ≤ (ws.flatMap encode).length := by
  induction ws with
  | nil => exact le_rfl
  | cons wc ws ih =>
    have hpos := List.length_pos_of_ne_nil (Utf8.encode_ne_nil wc)
    rw [List.flatMap_cons, List.length_append, List.length_cons]
    omega

/-- Zeros are written as null bytes. -/
theorem encode_replicate (n : ℕ) :
    (List.replicate n 0).flatMap encode = List.replicate n (0 : UInt8) := by
  induction n with
  | zero => rfl
  | succ n ih =>
    rw [List.replicate_succ, List.flatMap_cons, ih]
    rfl

/-- Code points have no null byte among them. -/
theorem ne_zero_of_mem_encode (h : Codepoints ws) {b : UInt8} (hb : b ∈ ws.flatMap encode) :
    b ≠ 0 := by
  obtain ⟨wc, hwc, hb⟩ := List.mem_flatMap.1 hb
  exact Utf8.ne_zero_of_mem_encode (h wc hwc).1 (h wc hwc).2 hb

/-- The array that holds a string's code points, up to the zero. -/
theorem takeWhile_append_replicate {α : Type} {p : α → Bool} {l : List α} {z : α} {n : ℕ}
    (hl : ∀ x ∈ l, p x) (hz : ¬ p z) : (l ++ List.replicate n z).takeWhile p = l := by
  rw [List.takeWhile_append_of_pos hl]
  cases n with
  | zero => simp only [List.replicate_zero, List.takeWhile_nil, List.append_nil]
  | succ n =>
    rw [List.replicate_succ, List.takeWhile_cons_of_neg hz, List.append_nil]

/-- The array `utf8_mbstr_to_wc` stores for code points. -/
theorem utf8MbstrToWcN_encode (h : Codepoints ws) :
    utf8MbstrToWcN (ws.flatMap encode) =
      some (ws ++ List.replicate ((ws.flatMap encode).length + 1 - ws.length) 0,
        (ws.flatMap encode).length) := by
  rw [utf8MbstrToWcN, utf8MbstrToWc_iff.2 ⟨h, rfl⟩]
  rfl

/-- And what it stored when it stored something. -/
theorem eq_of_utf8MbstrToWcN {w : List ℕ} {len : ℕ} (h : utf8MbstrToWcN str = some (w, len)) :
    ∃ ws, Codepoints ws ∧ str = ws.flatMap encode ∧
      w = ws ++ List.replicate (str.length + 1 - ws.length) 0 ∧ len = str.length := by
  rw [utf8MbstrToWcN, Option.bind_eq_bind, Option.bind_eq_some_iff] at h
  obtain ⟨ws, hstr, h⟩ := h
  obtain ⟨rfl, rfl⟩ := Prod.mk.inj (Option.some.inj h)
  obtain ⟨hws, rfl⟩ := utf8MbstrToWc_iff.1 hstr
  exact ⟨ws, hws, rfl, rfl, rfl⟩

/-- The array up to its zero is the code points. -/
theorem take_utf8WcStrlen (h : Codepoints ws) {n : ℕ} :
    (ws ++ List.replicate n 0).take (utf8WcStrlen (ws ++ List.replicate n 0)) = ws := by
  have hws : ∀ wc ∈ ws, decide (wc ≠ 0) = true := by
    intro wc hwc
    have := (h wc hwc).1
    exact decide_eq_true (by omega)
  have htake : (ws ++ List.replicate n 0).takeWhile (· ≠ 0) = ws :=
    takeWhile_append_replicate hws (by decide)
  rw [utf8WcStrlen, htake, List.take_left]

/-- The array up to the length reported, written again. -/
theorem utf8WcToMbstr_take (h : Codepoints ws) {n : ℕ} :
    ∃ s, utf8WcToMbstr ((ws ++ List.replicate n 0).take (ws.flatMap encode).length) = some s ∧
      s.takeWhile (· ≠ 0) = ws.flatMap encode := by
  have hle := length_le_encode ws
  rw [List.take_append, List.take_of_length_le (by omega), List.take_replicate]
  refine ⟨_, utf8WcToMbstr_eq ?_, ?_⟩
  · intro wc hwc
    rcases List.mem_append.1 hwc with hwc | hwc
    · exact (h wc hwc).2
    · rw [(List.mem_replicate.1 hwc).2]
      decide
  · rw [List.flatMap_append, encode_replicate]
    exact takeWhile_append_replicate (fun b hb => decide_eq_true (ne_zero_of_mem_encode h hb))
      (by decide)

/-- The bytes a character was decoded from. -/
theorem utf8Wctomb_of_utf8MbtowcN {r : Bytes} {len wc n : ℕ}
    (h : utf8MbtowcN r len = some (wc, n)) : utf8Wctomb wc = some (r.take n) := by
  rw [utf8MbtowcN] at h
  generalize (if len = 0 then utf8CharWidth r else len) = k at h
  obtain ⟨-, hwc, rfl, rest, hr⟩ := eq_encode_of_utf8Mbtowc h
  have hle : (encode wc).length ≤ k := by
    have hlen := congrArg List.length hr
    rw [List.length_take, List.length_append] at hlen
    omega
  have htake : (r.take k).take (encode wc).length = encode wc := by rw [hr, List.take_left]
  rw [List.take_take, Nat.min_eq_left hle] at htake
  rw [utf8Wctomb_eq hwc, htake]

/-- **The coder and the decoder are inverse to each other**, character by
character and string by string. `utf8_mbstr_to_wc` reports the number of
bytes where the number of code points is wanted, and the coder then goes
on into the zeros behind them; the string it makes ends before those. -/
theorem utf8_codec :
    (∀ wc, 1 ≤ wc → wc < 0x200000 →
      ∃ r, utf8Wctomb wc = some r ∧ ∀ len, r.length ≤ len → ∀ rest,
        utf8MbtowcN (r ++ rest) len = some (wc, r.length)) ∧
    (∀ r len wc n, utf8MbtowcN r len = some (wc, n) → utf8Wctomb wc = some (r.take n)) ∧
    (∀ str w len, 0 ∉ str → utf8MbstrToWcN str = some (w, len) →
      utf8WcToMbstr (w.take (utf8WcStrlen w)) = some str ∧
      ∃ s, utf8WcToMbstr (w.take len) = some s ∧ s.takeWhile (· ≠ 0) = str) ∧
    (∀ ws, Codepoints ws →
      ∃ str, utf8WcToMbstr ws = some str ∧ 0 ∉ str ∧ ∃ w len,
        utf8MbstrToWcN str = some (w, len) ∧ w.take (utf8WcStrlen w) = ws) := by
  refine ⟨?_, ?_, ?_, ?_⟩
  · intro wc h₀ h
    exact ⟨encode wc, utf8Wctomb_eq h, fun len hlen rest => utf8MbtowcN_encode h₀ h hlen rest⟩
  · intro r len wc n h
    exact utf8Wctomb_of_utf8MbtowcN h
  · intro str w len _ h
    obtain ⟨ws, hws, rfl, rfl, rfl⟩ := eq_of_utf8MbstrToWcN h
    rw [take_utf8WcStrlen hws]
    exact ⟨utf8WcToMbstr_eq fun wc hwc => (hws wc hwc).2, utf8WcToMbstr_take hws⟩
  · intro ws hws
    refine ⟨ws.flatMap encode, utf8WcToMbstr_eq fun wc hwc => (hws wc hwc).2,
      fun h => ne_zero_of_mem_encode hws h rfl, _, _, utf8MbstrToWcN_encode hws, ?_⟩
    exact take_utf8WcStrlen hws

/-- The codec at the euro sign. -/
theorem utf8_codec_euro : utf8MbtowcN [0xe2, 0x82, 0xac] 3 = some (0x20ac, 3) ∧
    utf8Wctomb 0x20ac = some [0xe2, 0x82, 0xac] :=
  ⟨by decide, utf8_codec.2.1 [0xe2, 0x82, 0xac] 3 0x20ac 3 (by decide)⟩

end Strings

/-! ## Texts of characters -/

/-- A C string of valid UTF-8: characters, none of them the null
character, which would end the string. -/
structure Utf8Text where
  /-- The characters. -/
  chars : List Char
  /-- A null would end the string. -/
  null_notMem : Char.ofNat 0 ∉ chars

namespace Utf8Text

variable (t : Utf8Text)

/-- The bytes in memory, without the null that ends them. -/
def bytes : Bytes := encodeAll t.chars

/-- The code points. -/
def codes : List ℕ := t.chars.map Char.toNat

/-- The bytes are those of the code points. -/
theorem bytes_eq : t.bytes = t.codes.flatMap encode := Utf8.encodeAll_eq t.chars

/-- The code points are those of Unicode, null excepted. -/
theorem codes_range {wc : ℕ} (h : wc ∈ t.codes) : 1 ≤ wc ∧ wc < 0x110000 := by
  obtain ⟨c, hc, rfl⟩ := List.mem_map.1 h
  refine ⟨?_, Utf8.toNat_lt c⟩
  by_contra hz
  have hc₀ : c = Char.ofNat 0 := Char.toNat_inj.1 (by
    rw [show c.toNat = 0 by omega]
    rfl)
  exact t.null_notMem (hc₀ ▸ hc)

/-- So the coder and the decoder share them. -/
theorem codes_codepoints : Codepoints t.codes := fun wc hwc =>
  ⟨(t.codes_range hwc).1, by have := (t.codes_range hwc).2; omega⟩

/-- The decoder finds the code points in the bytes. -/
theorem utf8MbstrToWc_bytes : utf8MbstrToWc t.bytes = some t.codes :=
  utf8MbstrToWc_iff.2 ⟨t.codes_codepoints, t.bytes_eq⟩

end Utf8Text

/-- The width that the number in the first byte announces. -/
theorem utf8CharWidth_ofNat {x : ℕ} (h : x < 256) (r : Bytes) :
    utf8CharWidth (UInt8.ofNat x :: r) =
      if x ≤ 0x7f then 1 else if 0xc2 ≤ x ∧ x ≤ 0xdf then 2
      else if 0xe0 ≤ x ∧ x ≤ 0xef then 3 else if 0xf0 ≤ x ∧ x ≤ 0xf4 then 4 else 0 := by
  simp only [utf8CharWidth, UInt8.le_iff_toNat_le, Utf8.toNat_ofNat h, UInt8.reduceToNat]

/-- The first byte of a character of Unicode announces its width. -/
theorem utf8CharWidth_encode {wc : ℕ} (h : wc < 0x110000) (r : Bytes) :
    utf8CharWidth (encode wc ++ r) = (encode wc).length := by
  rcases Utf8.width_cases wc with h₁ | ⟨h₀, h₁⟩ | ⟨h₀, h₁⟩ | h₀
  · rw [Utf8.encode_one h₁, List.singleton_append, utf8CharWidth_ofNat (by omega),
      if_pos (by omega)]
    rfl
  · rw [Utf8.encode_two h₀ h₁, List.cons_append, utf8CharWidth_ofNat (by omega),
      if_neg (by omega), if_pos (by omega)]
    rfl
  · rw [Utf8.encode_three h₀ h₁, List.cons_append, utf8CharWidth_ofNat (by omega),
      if_neg (by omega), if_neg (by omega), if_pos (by omega)]
    rfl
  · rw [Utf8.encode_four h₀, List.cons_append, utf8CharWidth_ofNat (by omega),
      if_neg (by omega), if_neg (by omega), if_neg (by omega), if_pos (by omega)]
    rfl

end Dico
