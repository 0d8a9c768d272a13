import Mathlib.Algebra.Ring.Nat
import Mathlib.Data.List.Basic
import Mathlib.Tactic.Common
/-!
# UTF-8 by digits

A code point below `2 ^ 21` is written with one to four bytes: the lead
byte holds the digits that are left when six bits at a time are taken
off, and says how many bytes follow. `encode` states this in base 64, and
`encode_char` that it is what the language does with its own characters.
The bit operations such code is written with are read as arithmetic here,
once: `trail_xor`, `lead_and`, `shift_or` and `or_mark`.
-/

namespace Dico

namespace Utf8

/-- The byte that carries one digit of a code point after the lead byte. -/
def trail (x : ℕ) : UInt8 := UInt8.ofNat (0x80 + x % 64)

/-- The bytes of a code point below `2 ^ 21`. -/
def encode (wc : ℕ) : List UInt8 :=
  if wc < 0x80 then [UInt8.ofNat wc]
  else if wc < 0x800 then [UInt8.ofNat (0xc0 + wc / 64), trail wc]
  else if wc < 0x10000 then [UInt8.ofNat (0xe0 + wc / 4096), trail (wc / 64), trail wc]
  else [UInt8.ofNat (0xf0 + wc / 262144), trail (wc / 4096), trail (wc / 64), trail wc]

/-- How many bytes that is. -/
def width (wc : ℕ) : ℕ :=
  if wc < 0x80 then 1 else if wc < 0x800 then 2 else if wc < 0x10000 then 3 else 4

/-- The bytes of a string of characters. -/
def encodeAll (cs : List Char) : List UInt8 := cs.flatMap String.utf8EncodeChar

/-! ## Bits and digits -/

/-- The mark of a byte that continues a character comes off again. -/
theorem trail_xor {x : ℕ} (h : x < 64) : (0x80 + x) ^^^ 0x80 = x := by
  have hall : ∀ x < 64, (0x80 + x) ^^^ 0x80 = x := by decide
  exact hall x h

/-- A byte with the mark of one that continues a character is a digit
with that mark. -/
theorem exists_trail {b : ℕ} (hb : b < 256) (h : b ^^^ 0x80 < 0x40) :
    ∃ x < 64, b = 0x80 + x := by
  have hall : ∀ b < 256, b ^^^ 0x80 < 0x40 → 0x80 ≤ b ∧ b < 0xc0 := by decide +kernel
  obtain ⟨hlo, hhi⟩ := hall b hb h
  exact ⟨b - 0x80, by omega, by omega⟩

/-- The mark of a lead byte comes off again. -/
theorem lead_and {k m x : ℕ} (hk : k % 2 ^ m = 0) (h : x < 2 ^ m) :
    (k + x) &&& (2 ^ m - 1) = x := by
  rw [Nat.and_two_pow_sub_one_eq_mod, Nat.add_mod, hk, Nat.zero_add, Nat.mod_mod,
    Nat.mod_eq_of_lt h]

/-- A digit put behind others. -/
theorem shift_or {a k t : ℕ} (h : t < 2 ^ k) : a <<< k ||| t = a * 2 ^ k + t := by
  rw [← Nat.shiftLeft_add_eq_or_of_lt h, Nat.shiftLeft_eq]

/-- Two digits behind others. -/
theorem shift_or_two {a b c : ℕ} (hb : b < 64) (hc : c < 64) :
    a <<< 12 ||| b <<< 6 ||| c = a * 4096 + b * 64 + c := by
  have hbc : b <<< 6 ||| c = b * 2 ^ 6 + c := shift_or hc
  rw [Nat.or_assoc, hbc, shift_or (by omega)]
  omega

/-- Three. -/
theorem shift_or_three {a b c d : ℕ} (hb : b < 64) (hc : c < 64) (hd : d < 64) :
    a <<< 18 ||| b <<< 12 ||| c <<< 6 ||| d = a * 262144 + b * 4096 + c * 64 + d := by
  have hbcd : b <<< 12 ||| c <<< 6 ||| d = b * 4096 + c * 64 + d := shift_or_two hc hd
  rw [Nat.or_assoc, Nat.or_assoc, ← Nat.or_assoc (b <<< 12), hbcd, shift_or (by omega)]
  omega

/-- A mark put on top of digits. -/
theorem or_mark {a k t : ℕ} (h : t < 2 ^ k) : t ||| a * 2 ^ k = a * 2 ^ k + t := by
  rw [Nat.or_comm, ← Nat.shiftLeft_eq, shift_or h, Nat.shiftLeft_eq]

/-- A byte that holds a number it is large enough for. -/
theorem toNat_ofNat {x : ℕ} (h : x < 256) : (UInt8.ofNat x).toNat = x := by
  rw [UInt8.toNat_ofNat']
  exact Nat.mod_eq_of_lt h

/-- A byte is the byte of its number. -/
theorem ofNat_eq {b : UInt8} {x : ℕ} (h : b.toNat = x) : b = UInt8.ofNat x := by
  rw [← h, UInt8.ofNat_toNat]

/-- A byte whose number is a marked digit. -/
theorem eq_trail {b : UInt8} {x y : ℕ} (h : b.toNat = 0x80 + x) (hy : y % 64 = x) :
    b = trail y := by
  rw [trail, hy]
  exact ofNat_eq h

/-! ## The encoding -/

/-- Seven bits take one byte. -/
theorem encode_one {wc : ℕ} (h : wc < 0x80) : encode wc = [UInt8.ofNat wc] := if_pos h

/-- Eleven bits take two. -/
theorem encode_two {wc : ℕ} (h₀ : 0x80 ≤ wc) (h : wc < 0x800) :
    encode wc = [UInt8.ofNat (0xc0 + wc / 64), trail wc] := by
  rw [encode, if_neg (by omega), if_pos h]

/-- Sixteen bits take three. -/
theorem encode_three {wc : ℕ} (h₀ : 0x800 ≤ wc) (h : wc < 0x10000) :
    encode wc = [UInt8.ofNat (0xe0 + wc / 4096), trail (wc / 64), trail wc] := by
  rw [encode, if_neg (by omega), if_neg (by omega), if_pos h]

/-- And more take four. -/
theorem encode_four {wc : ℕ} (h₀ : 0x10000 ≤ wc) :
    encode wc =
      [UInt8.ofNat (0xf0 + wc / 262144), trail (wc / 4096), trail (wc / 64), trail wc] := by
  rw [encode, if_neg (by omega), if_neg (by omega), if_neg (by omega)]

/-- The four widths of a code point. -/
theorem width_cases (wc : ℕ) : wc < 0x80 ∨ (0x80 ≤ wc ∧ wc < 0x800) ∨
    (0x800 ≤ wc ∧ wc < 0x10000) ∨ 0x10000 ≤ wc := by
  omega

/-- A code point takes at least one byte. -/
theorem encode_ne_nil (wc : ℕ) : encode wc ≠ [] := by
  rcases width_cases wc with h | ⟨h₀, h⟩ | ⟨h₀, h⟩ | h
  · rw [encode_one h]
    exact List.cons_ne_nil _ _
  · rw [encode_two h₀ h]
    exact List.cons_ne_nil _ _
  · rw [encode_three h₀ h]
    exact List.cons_ne_nil _ _
  · rw [encode_four h]
    exact List.cons_ne_nil _ _

/-- The bytes of a code point are as many as its width says. -/
theorem length_encode (wc : ℕ) : (encode wc).length = width wc := by
  unfold encode width
  split_ifs <;> rfl

/-- One byte is seven bits. -/
theorem lt_of_length_encode {wc : ℕ} (h : (encode wc).length = 1) : wc < 0x80 := by
  rcases width_cases wc with h₁ | ⟨h₀, h₁⟩ | ⟨h₀, h₁⟩ | h₀
  · exact h₁
  · rw [encode_two h₀ h₁] at h
    cases h
  · rw [encode_three h₀ h₁] at h
    cases h
  · rw [encode_four h₀] at h
    cases h

/-- So what begins with a code point begins with a byte. -/
theorem encode_append (wc : ℕ) (r : List UInt8) : ∃ b q, encode wc ++ r = b :: q :=
  List.exists_cons_of_ne_nil (List.append_ne_nil_of_left_ne_nil (encode_ne_nil wc) r)

/-- A byte with a number in it is not null. -/
theorem ofNat_ne_zero {x : ℕ} (h₀ : 0 < x) (h : x < 256) : UInt8.ofNat x ≠ 0 := by
  intro heq
  have hx := congrArg UInt8.toNat heq
  rw [toNat_ofNat h, UInt8.toNat_zero] at hx
  omega

/-- The number in a byte that continues a character. -/
theorem le_toNat_trail (x : ℕ) : 0x80 ≤ (trail x).toNat := by
  rw [trail, toNat_ofNat (by omega)]
  omega

/-- More than seven bits take bytes of eight. -/
theorem le_of_mem_encode {wc : ℕ} (h₀ : 0x80 ≤ wc) (hwc : wc < 0x200000) {b : UInt8}
    (hb : b ∈ encode wc) : 0x80 ≤ b.toNat := by
  rcases width_cases wc with h | ⟨h₁, h⟩ | ⟨h₁, h⟩ | h
  · omega
  · rw [encode_two h₁ h] at hb
    simp only [List.mem_cons, List.not_mem_nil, or_false] at hb
    rcases hb with rfl | rfl
    · rw [toNat_ofNat (by omega)]
      omega
    · exact le_toNat_trail _
  · rw [encode_three h₁ h] at hb
    simp only [List.mem_cons, List.not_mem_nil, or_false] at hb
    rcases hb with rfl | rfl | rfl
    · rw [toNat_ofNat (by omega)]
      omega
    · exact le_toNat_trail _
    · exact le_toNat_trail _
  · rw [encode_four h] at hb
    simp only [List.mem_cons, List.not_mem_nil, or_false] at hb
    rcases hb with rfl | rfl | rfl | rfl
    · rw [toNat_ofNat (by omega)]
      omega
    · exact le_toNat_trail _
    · exact le_toNat_trail _
    · exact le_toNat_trail _

/-- Only the null character has a null byte. -/
theorem ne_zero_of_mem_encode {wc : ℕ} (h₀ : 1 ≤ wc) (hwc : wc < 0x200000) {b : UInt8}
    (hb : b ∈ encode wc) : b ≠ 0 := by
  by_cases h : wc < 0x80
  · rw [encode_one h, List.mem_singleton] at hb
    rw [hb]
    exact ofNat_ne_zero (by omega) (by omega)
  · rintro rfl
    have hle := le_of_mem_encode (by omega) hwc hb
    rw [UInt8.toNat_zero] at hle
    omega

/-! ## The characters of the language -/

/-- Where the characters end. -/
theorem toNat_lt (c : Char) : c.toNat < 0x110000 := by
  rcases c.valid with h | h
  · exact lt_trans h (by decide)
  · exact h.2

/-- The number of the character of a number that has one. -/
theorem toNat_charOfNat {n : ℕ} (h : n.isValidChar) : (Char.ofNat n).toNat = n := by
  rw [Char.ofNat, dif_pos h]
  rfl

/-- **The language encodes its characters this way.** -/
theorem utf8EncodeChar_eq (c : Char) : String.utf8EncodeChar c = encode c.toNat := by
  have hlt := toNat_lt c
  have hv : c.val.toNat = c.toNat := rfl
  unfold String.utf8EncodeChar
  simp only [hv]
  rcases width_cases c.toNat with h | ⟨h₀, h⟩ | ⟨h₀, h⟩ | h
  · rw [if_pos (by omega), encode_one h]
  · rw [if_neg (by omega), if_pos (by omega), encode_two h₀ h, trail, Nat.mod_eq_of_lt (by omega),
      Nat.add_comm, Nat.add_comm (c.toNat % 64)]
  · rw [if_neg (by omega), if_neg (by omega), if_pos (by omega), encode_three h₀ h, trail, trail,
      Nat.mod_eq_of_lt (by omega : c.toNat / 4096 < 16), Nat.add_comm,
      Nat.add_comm (c.toNat % 64), Nat.add_comm (c.toNat / 64 % 64)]
  · rw [if_neg (by omega), if_neg (by omega), if_neg (by omega), encode_four h, trail, trail, trail,
      Nat.mod_eq_of_lt (by omega : c.toNat / 262144 < 8), Nat.add_comm,
      Nat.add_comm (c.toNat % 64), Nat.add_comm (c.toNat / 64 % 64),
      Nat.add_comm (c.toNat / 4096 % 64)]

/-- The bytes of a string, code point by code point. -/
theorem encodeAll_eq (cs : List Char) : encodeAll cs = (cs.map Char.toNat).flatMap encode := by
  rw [encodeAll, List.flatMap_map]
  exact List.flatMap_congr fun c _ => utf8EncodeChar_eq c

end Utf8

end Dico
