import Dico.Text.Cstr
import Mathlib.Data.List.TakeWhile
/-!
# Numbers in strings

`strtoul` of the C library, for base 10 and for the base that a number's
own notation gives. A number too large for an `unsigned long` is read as
the largest there is.
-/

namespace Dico

/-- The value of a digit of a base up to sixteen. -/
def digitIn (base : ℕ) (c : UInt8) : Option ℕ :=
  let v := if 48 ≤ c ∧ c ≤ 57 then c.toNat - 48
    else if 65 ≤ c ∧ c ≤ 70 then c.toNat - 55
    else if 97 ≤ c ∧ c ≤ 102 then c.toNat - 87
    else base
  if v < base then some v else none

/-- The number that digits stand for. -/
def numberOf (base : ℕ) (ds : Bytes) : ℕ :=
  ds.foldl (fun n c => base * n + (digitIn base c).getD 0) 0

/-- The digits in front of a string. -/
def digitsOf (base : ℕ) (s : Bytes) : Bytes := s.takeWhile fun c => (digitIn base c).isSome

/-- `ULONG_MAX`. -/
def ulongMax : ℕ := 2 ^ 64 - 1

/-- What is behind a sign. -/
def skipSign (s : Bytes) : Bytes :=
  if s.head? = some 43 ∨ s.head? = some 45 then s.drop 1 else s

/-- `strtoul (s, &q, 10)`: the number, and the string at `q`. -/
def strtoul10 (s : Bytes) : ℕ × Bytes :=
  let t := s.dropWhile isSpace
  let u := skipSign t
  let ds := digitsOf 10 u
  let n := numberOf 10 ds
  if ds = [] then (0, s)
  else if ulongMax < n then (ulongMax, u.drop ds.length)
  else if t.head? = some 45 then ((2 ^ 64 - n) % 2 ^ 64, u.drop ds.length)
  else (n, u.drop ds.length)

/-- The base of a number as C writes it, and where its digits begin. -/
def numberBase (s : Bytes) : ℕ × Bytes :=
  if s.head? = some 48 then
    if (s[1]? = some 120 ∨ s[1]? = some 88) ∧ (s[2]?.bind (digitIn 16)).isSome then
      (16, s.drop 2)
    else (8, s)
  else (10, s)

/-- `strtoul (s, &q, 0)`, of a string that begins with a digit; what is too
large for the caller may be larger here. -/
def strtoul0 (s : Bytes) : ℕ × Bytes :=
  let (base, t) := numberBase s
  let ds := digitsOf base t
  (numberOf base ds, t.drop ds.length)

/-- `strtol (s, &q, 0)`, with a number out of range moved to the end of it. -/
def strtol0 (s : Bytes) : ℤ × Bytes :=
  let t := s.dropWhile isSpace
  let (base, u) := numberBase (skipSign t)
  let ds := digitsOf base u
  let n := numberOf base ds
  if ds = [] then (0, s)
  else if t.head? = some 45 then (-Int.ofNat (min n (2 ^ 63)), u.drop ds.length)
  else (Int.ofNat (min n (2 ^ 63 - 1)), u.drop ds.length)

/-- The decimal digits. -/
theorem digitIn_ten {c : UInt8} (h : (digitIn 10 c).isSome) : 48 ≤ c ∧ c ≤ 57 := by
  by_contra hc
  unfold digitIn at h
  simp only [if_neg hc] at h
  simp only [UInt8.le_iff_toNat_le] at h
  split_ifs at h with h₁ h₂ h₃ h₄ h₅ <;> simp_all <;> omega

/-- A digit is no blank and no sign. -/
theorem digit_plain {c : UInt8} (h : (digitIn 10 c).isSome) :
    ¬isSpace c ∧ c ≠ 43 ∧ c ≠ 45 ∧ c ≠ 47 := by
  obtain ⟨hlo, hhi⟩ := digitIn_ten h
  rw [UInt8.le_iff_toNat_le] at hlo hhi
  refine ⟨?_, ?_, ?_, ?_⟩
  · rintro (rfl | ⟨-, h₁⟩)
    · exact absurd hlo (by decide)
    · rw [UInt8.le_iff_toNat_le] at h₁
      have h₂ : (48 : UInt8).toNat ≤ (13 : UInt8).toNat := hlo.trans h₁
      exact absurd h₂ (by decide)
  all_goals
    rintro rfl
    exact absurd hlo (by decide)

/-- A number without blanks or a sign in front of it. -/
theorem strtoul10_append {ds r : Bytes} (hne : ds ≠ [])
    (hds : ∀ c ∈ ds, (digitIn 10 c).isSome) (hr : ∀ c ∈ r.head?, ¬(digitIn 10 c).isSome) :
    strtoul10 (ds ++ r) = (min (numberOf 10 ds) ulongMax, r) := by
  have hspan : digitsOf 10 (ds ++ r) = ds := by
    unfold digitsOf
    rw [List.takeWhile_append_of_pos hds]
    cases r with
    | nil => exact List.append_nil ds
    | cons c r =>
      have hc : ¬(digitIn 10 c).isSome := hr c rfl
      rw [List.takeWhile_cons, if_neg hc, List.append_nil]
  obtain ⟨c, ds', rfl⟩ := List.exists_cons_of_ne_nil hne
  obtain ⟨hspace, hplus, hminus, -⟩ := digit_plain (hds c List.mem_cons_self)
  have hskip : (c :: ds' ++ r).dropWhile (fun c => decide (isSpace c)) = c :: ds' ++ r := by
    rw [List.cons_append, List.dropWhile_cons_of_neg (by rwa [decide_eq_true_iff])]
  have hhead : (c :: ds' ++ r).head? = some c := rfl
  have hsign : skipSign (c :: ds' ++ r) = c :: ds' ++ r := by
    unfold skipSign
    rw [if_neg (by rw [hhead, Option.some_inj, Option.some_inj]; tauto)]
  unfold strtoul10
  simp only [hskip, hsign, hspan, List.drop_left, if_neg hne, hhead, Option.some_inj,
    if_neg hminus]
  split_ifs with h
  · rw [min_eq_right h.le]
  · rw [min_eq_left (not_lt.1 h)]

/-- A number with nothing behind it. -/
theorem strtoul10_digits {ds : Bytes} (hne : ds ≠ [])
    (hds : ∀ c ∈ ds, (digitIn 10 c).isSome) :
    strtoul10 ds = (min (numberOf 10 ds) ulongMax, []) := by
  have hread := strtoul10_append (r := []) hne hds (by
    intro c hc
    exact absurd hc (Option.not_mem_none c))
  rwa [List.append_nil] at hread

/-- What is behind a number is part of the string. -/
theorem mem_of_mem_strtoul10 {s : Bytes} {c : UInt8} (h : c ∈ (strtoul10 s).2) : c ∈ s := by
  have htail : ∀ n, c ∈ (skipSign (s.dropWhile isSpace)).drop n → c ∈ s := by
    intro n hc
    have hsign := List.mem_of_mem_drop hc
    refine (List.dropWhile_suffix fun b => decide (isSpace b)).mem ?_
    unfold skipSign at hsign
    split_ifs at hsign
    · exact List.mem_of_mem_drop hsign
    · exact hsign
  unfold strtoul10 at h
  dsimp only at h
  split_ifs at h
  · exact h
  · exact htail _ h
  · exact htail _ h
  · exact htail _ h

/-- A number in decimal notation. -/
structure Decimal where
  /-- Its digits. -/
  digits : Bytes
  /-- There is at least one. -/
  ne_nil : digits ≠ []
  /-- And nothing else. -/
  isDigit : ∀ c ∈ digits, (digitIn 10 c).isSome

namespace Decimal

/-- The number. -/
def value (d : Decimal) : ℕ := numberOf 10 d.digits

/-- A number within range is read as it is, up to what is no digit. -/
theorem strtoul10_eq (d : Decimal) (h : d.value < 2 ^ 64) {r : Bytes}
    (hr : ∀ c ∈ r.head?, ¬(digitIn 10 c).isSome) : strtoul10 (d.digits ++ r) = (d.value, r) := by
  rw [strtoul10_append d.ne_nil d.isDigit hr, ← value, min_eq_left]
  rw [ulongMax]
  omega

end Decimal

end Dico
