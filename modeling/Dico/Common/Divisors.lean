import Mathlib.Data.Nat.Choose.Factorization
/-!
# Numbers with many divisors

A number that everything up to `2 * N` divides is 0 or large: the central
binomial coefficient of `N` divides it, of which no prime power is above
`2 * N`, and that is almost `4 ^ N`.
-/

namespace Dico

/-- What all small numbers divide the central binomial coefficient divides. -/
theorem centralBinom_dvd {N m : ℕ} (hN : 0 < N) (h : ∀ n, 0 < n → n ≤ 2 * N → n ∣ m) :
    Nat.centralBinom N ∣ m := by
  rw [Nat.dvd_iff_prime_pow_dvd_dvd]
  intro p k hp hdvd
  have hexp := (hp.pow_dvd_iff_le_factorization (Nat.centralBinom_ne_zero N)).1 hdvd
  have hle : p ^ (Nat.centralBinom N).factorization p ≤ 2 * N :=
    Nat.pow_factorization_choose_le (by omega)
  exact h _ (pow_pos hp.pos k) ((Nat.pow_le_pow_right hp.pos hexp).trans hle)

/-- **A number below that bound which all small numbers divide is 0.** -/
theorem eq_zero_of_forall_dvd {N m : ℕ} (hN : 4 ≤ N) (hm : m * N < 4 ^ N)
    (h : ∀ n, 0 < n → n ≤ 2 * N → n ∣ m) : m = 0 := by
  by_contra hne
  have hle := Nat.le_of_dvd (Nat.pos_of_ne_zero hne) (centralBinom_dvd (by omega) h)
  have hbig := Nat.four_pow_lt_mul_centralBinom N hN
  refine absurd hbig (not_lt.2 ?_)
  calc N * Nat.centralBinom N ≤ N * m := Nat.mul_le_mul_left N hle
    _ = m * N := Nat.mul_comm N m
    _ ≤ 4 ^ N := hm.le

end Dico
