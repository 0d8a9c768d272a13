import Dico.Common.Memory
/-!
# Base64

The standard base64 encoding of a list of bytes: three bytes are a number
of 24 bits and go out as its four digits in base 64, and one or two bytes
at the end are filled up with `=`. Encodings of multiples of three bytes
can be put together (`encode_append`); an encoding with `=` at its end
cannot be continued to the encoding of anything longer
(`encode_append_ne`).
-/

namespace Dico

namespace Base64

/-- The character of a digit in base 64. -/
def digit (n : ℕ) : UInt8 :=
  if n < 26 then UInt8.ofNat (65 + n)
  else if n < 52 then UInt8.ofNat (97 + (n - 26))
  else if n < 62 then UInt8.ofNat (48 + (n - 52))
  else if n = 62 then 43
  else 47

/-- The character `=`. -/
def padding : UInt8 := 61

/-- The four digits of a number of 24 bits, most significant first. -/
def digits (n : ℕ) : Bytes :=
  [digit (n / 2 ^ 18 % 64), digit (n / 2 ^ 12 % 64), digit (n / 2 ^ 6 % 64), digit (n % 64)]

/-- Three bytes as a number, the first one most significant. -/
def triple (a b c : UInt8) : ℕ := a.toNat * 2 ^ 16 + b.toNat * 2 ^ 8 + c.toNat

/-- The encoding of some bytes. -/
def encode : Bytes → Bytes
  | [] => []
  | [a] => (digits (triple a 0 0)).take 2 ++ [padding, padding]
  | [a, b] => (digits (triple a b 0)).take 3 ++ [padding]
  | a :: b :: c :: bs => digits (triple a b c) ++ encode bs

variable {x y : Bytes} {n : ℕ}

theorem digit_ne_of_forall (b : UInt8) (h : ∀ k : Fin 64, digit k ≠ b) (hn : n < 64) :
    digit n ≠ b := h ⟨n, hn⟩

/-- No digit is the padding. -/
theorem digit_ne_padding (hn : n < 64) : digit n ≠ padding :=
  digit_ne_of_forall padding (by decide) hn

/-- A character that is neither a digit nor the padding is in no
encoding. -/
theorem notMem_encode (b : UInt8) (h : ∀ k : Fin 64, digit k ≠ b) (hp : padding ≠ b) (x : Bytes) :
    b ∉ encode x := by
  have hd : ∀ n, b ∉ digits n := by
    intro n hm
    simp only [digits, List.mem_cons, List.not_mem_nil, or_false] at hm
    rcases hm with hm | hm | hm | hm <;>
      exact digit_ne_of_forall b h (Nat.mod_lt _ (by decide)) hm.symm
  fun_induction encode x with
  | case1 => exact List.not_mem_nil
  | case2 a =>
    simp only [List.mem_append, List.mem_cons, List.not_mem_nil, or_false, or_self, not_or]
    exact ⟨fun hm => hd _ (List.mem_of_mem_take hm), hp.symm⟩
  | case3 a c =>
    simp only [List.mem_append, List.mem_cons, List.not_mem_nil, or_false, not_or]
    exact ⟨fun hm => hd _ (List.mem_of_mem_take hm), hp.symm⟩
  | case4 a c d bs ih =>
    rw [List.mem_append, not_or]
    exact ⟨hd _, ih⟩

/-- **Encodings are put together at multiples of three bytes.** -/
theorem encode_append (h : x.length % 3 = 0) : encode (x ++ y) = encode x ++ encode y := by
  fun_induction encode x with
  | case1 => rfl
  | case2 a => exact absurd h (show ¬ 1 % 3 = 0 by decide)
  | case3 a b => exact absurd h (show ¬ 2 % 3 = 0 by decide)
  | case4 a b c bs ih =>
    have hbs : bs.length % 3 = 0 := by
      simp only [List.length_cons] at h
      omega
    rw [List.cons_append, List.cons_append, List.cons_append, encode, ih hbs, List.append_assoc]

/-- Three bytes, or what is left of them, are four characters. -/
theorem length_encode (x : Bytes) : (encode x).length = 4 * ((x.length + 2) / 3) := by
  fun_induction encode x with
  | case1 => rfl
  | case2 a => simp only [digits, List.take_succ_cons, List.take_zero, List.length_append,
      List.length_cons, List.length_nil, Nat.reduceAdd, Nat.reduceDiv, Nat.reduceMul]
  | case3 a b => simp only [digits, List.take_succ_cons, List.take_zero, List.length_append,
      List.length_cons, List.length_nil, Nat.reduceAdd, Nat.reduceDiv, Nat.reduceMul]
  | case4 a b c bs ih =>
    have hfour : (digits (triple a b c)).length = 4 := rfl
    rw [List.length_append, hfour, ih]
    simp only [List.length_cons]
    omega

theorem encode_eq_nil_iff : encode x = [] ↔ x = [] := by
  rw [← List.length_eq_zero_iff, ← List.length_eq_zero_iff, length_encode]
  omega

/-- Three bytes and more start with four digits. -/
theorem encode_head_ne_padding (h : 3 ≤ x.length) (u : Bytes) (p q r : UInt8) :
    encode x ≠ p :: q :: r :: padding :: u := by
  match x, h with
  | a :: b :: c :: bs, _ =>
    intro heq
    simp only [encode, digits, List.cons_append, List.nil_append, List.cons.injEq] at heq
    exact digit_ne_padding (Nat.mod_lt _ (by decide)) heq.2.2.2.1

/-- **Nothing that goes on behind a padded encoding is the encoding of
something longer.** -/
theorem encode_append_ne (hx : x.length % 3 ≠ 0) (hy : y ≠ []) {u : Bytes} (hu : u ≠ []) :
    encode x ++ u ≠ encode (x ++ y) := by
  fun_induction encode x with
  | case1 => exact absurd rfl hx
  | case2 a =>
    match y with
    | [] => exact absurd rfl hy
    | [b] =>
      intro h
      have hlen := congrArg List.length h
      have hfour : (encode ([a] ++ [b])).length = 4 := rfl
      rw [hfour, List.length_append] at hlen
      have hfour' : ((digits (triple a 0 0)).take 2 ++ [padding, padding]).length = 4 := rfl
      have := List.length_pos_iff.2 hu
      omega
    | b :: c :: bs =>
      intro h
      exact encode_head_ne_padding (by simp only [List.length_append, List.length_cons]; omega) u
        _ _ _ h.symm
  | case3 a b =>
    have := List.length_pos_iff.2 hy
    intro h
    exact encode_head_ne_padding (by simp only [List.length_append, List.length_cons]; omega) u
      _ _ _ h.symm
  | case4 a b c bs ih =>
    have hbs : bs.length % 3 ≠ 0 := by
      simp only [List.length_cons] at hx
      omega
    rw [List.cons_append, List.cons_append, List.cons_append, encode, List.append_assoc]
    exact fun h => ih hbs (List.append_cancel_left h)

end Base64

end Dico
