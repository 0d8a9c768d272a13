import Dico.Common.Run
import Mathlib.Algebra.Order.Ring.Int
/-!
# The `int` of C

An `int` has 32 bits. A size that is kept in one loses what is above them
(`asInt`); a sum or a product that has no place in one is an overflow, and
what the program does then is not defined (`intOp`).
-/

namespace Dico

/-- A size as the `int` it is kept in. -/
def asInt (n : ℕ) : ℤ := (n : ℤ).bmod (2 ^ 32)

/-- The result of an operation on `int`s. -/
def intOp (n : ℤ) : Except Fault ℤ :=
  if -2 ^ 31 ≤ n ∧ n < 2 ^ 31 then .ok n else .error .overflow

/-- An `int` holds a size below 2³¹. -/
theorem asInt_eq_iff (n : ℕ) : asInt n = n ↔ n < 2 ^ 31 := by
  unfold asInt
  constructor
  · intro h
    have hlt := @Int.bmod_lt n (2 ^ 32) (by decide)
    omega
  · intro h
    exact Int.bmod_eq_of_le (by omega) (by omega)

/-- The values of an `int`. -/
theorem asInt_bounds (n : ℕ) : -2 ^ 31 ≤ asInt n ∧ asInt n < 2 ^ 31 := by
  have hlt := @Int.bmod_lt n (2 ^ 32) (by decide)
  have hle := @Int.le_bmod n (2 ^ 32) (by decide)
  unfold asInt
  omega

/-- **A size that an `int` does not hold** is off by a multiple of 2³². -/
theorem asInt_add_mul (n : ℕ) : ∃ k : ℕ, (n : ℤ) = asInt n + 2 ^ 32 * k := by
  obtain ⟨-, hlt⟩ := asInt_bounds n
  have hsplit : (n : ℤ) = asInt n + 2 ^ 32 * (n : ℤ).bdiv (2 ^ 32) :=
    (Int.bmod_add_bdiv n (2 ^ 32)).symm
  generalize (n : ℤ).bdiv (2 ^ 32) = k at hsplit
  have hk : 0 ≤ k := by omega
  obtain ⟨k, rfl⟩ := Int.eq_ofNat_of_zero_le hk
  exact ⟨k, hsplit⟩

/-- It is not more than the size. -/
theorem asInt_le (n : ℕ) : asInt n ≤ n := by
  obtain ⟨k, hk⟩ := asInt_add_mul n
  omega

/-- Where it is not the size, the size is larger by 2³² at least. -/
theorem asInt_eq_or (n : ℕ) : asInt n = n ∨ 2 ^ 32 + asInt n ≤ n := by
  obtain ⟨k, hk⟩ := asInt_add_mul n
  rcases Nat.eq_zero_or_pos k with rfl | hpos
  · exact .inl (by omega)
  · exact .inr (by omega)

section Operations

variable {n m : ℤ}

/-- A result that has a place. -/
theorem intOp_ok (hle : -2 ^ 31 ≤ n) (hlt : n < 2 ^ 31) : intOp n = .ok n := if_pos ⟨hle, hlt⟩

/-- And one that is too large. -/
theorem intOp_overflow (h : 2 ^ 31 ≤ n) : intOp n = .error .overflow :=
  if_neg fun hc => absurd hc.2 (not_lt.2 h)

/-- What is known of a result. -/
theorem intOp_eq_ok : intOp n = .ok m ↔ (-2 ^ 31 ≤ n ∧ n < 2 ^ 31) ∧ n = m := by
  unfold intOp
  split_ifs with h
  · rw [and_iff_right h]
    exact ⟨Except.ok.inj, congrArg Except.ok⟩
  · exact iff_of_false nofun fun hc => h hc.1

end Operations

end Dico
