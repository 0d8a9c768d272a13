import Dico.Common.Divisors
import Dico.Hash.Content
import Dico.Text.Strings
/-!
# The names of access control lists

The two functions that `acl.c` gives its hash table. `acl_compare` does not
mind the case of the letters; `acl_hasher` reads the bytes of a name as a
number in base 31, and the bucket is its residue modulo the number of
buckets. So names that compare equal have the same bucket in every table
exactly if these numbers have the `SameResidues`, which for names of any
sensible length means that they are the same number, and in the C locale
that the names are spelled the same.
-/

namespace Dico

/-- `struct grecs_locus_point`. -/
structure LocusPoint where
  file : Bytes
  line : ℕ
  col : ℕ
  deriving DecidableEq, Repr

/-- `grecs_locus_t`. -/
structure Locus where
  beg : LocusPoint
  fin : LocusPoint
  deriving DecidableEq, Repr

/-- What the table needs of a `struct dicod_acl`; `addr` is where it is. -/
structure DicodAcl where
  addr : ℕ
  name : Bytes
  locus : Locus
  deriving DecidableEq, Repr

/-- `hash_string`. -/
def hashString (string : Bytes) (nBuckets : ℕ) : ℕ :=
  string.foldl (fun value ch => (value * 31 + ch.toNat) % 2 ^ 64 % nBuckets) 0

/-- `acl_hasher`, whose `n_buckets` is `unsigned`. -/
def aclHasher (p : DicodAcl) (nBuckets : ℕ) : Except Fault ℕ :=
  -- the remainder of a division by 0
  if nBuckets % 2 ^ 32 = 0 ∧ p.name ≠ [] then .error .abort
  else .ok (hashString p.name (nBuckets % 2 ^ 32))

/-- Whether `strcasecmp` says that two names are the same, where `tolower` is
that of the locale. -/
def SameName (tolower : UInt8 → UInt8) (a b : Bytes) : Prop := a.map tolower = b.map tolower

instance (tolower : UInt8 → UInt8) (a b : Bytes) : Decidable (SameName tolower a b) :=
  inferInstanceAs (Decidable (_ = _))

/-- `acl_compare`. -/
def aclCompare (tolower : UInt8 → UInt8) (p₁ p₂ : DicodAcl) : Bool :=
  decide (SameName tolower p₁.name p₂.name)

/-! ## Names as numbers -/

/-- A name in base 31. -/
def numeral (s : Bytes) : ℕ := s.foldl (fun value ch => value * 31 + ch.toNat) 0

/-- Names that are the same number modulo all numbers of 32 bits. -/
def SameResidues (a b : Bytes) : Prop :=
  ∀ n, 0 < n → n < 2 ^ 32 → numeral a ≡ numeral b [MOD n]

/-- A name with a character more. -/
theorem numeral_concat (s : Bytes) (ch : UInt8) :
    numeral (s ++ [ch]) = numeral s * 31 + ch.toNat := List.foldl_concat ..

/-- One turn of the loop. -/
theorem hashString_concat (s : Bytes) (ch : UInt8) (n : ℕ) :
    hashString (s ++ [ch]) n = (hashString s n * 31 + ch.toNat) % 2 ^ 64 % n :=
  List.foldl_concat ..

/-- **The hash of a name** is a residue; nothing overflows on the way. -/
theorem hashString_eq {n : ℕ} (hn : 0 < n) (hlt : n < 2 ^ 32) (s : Bytes) :
    hashString s n = numeral s % n := by
  induction s using List.reverseRecOn with
  | nil => exact (Nat.zero_mod n).symm
  | append_singleton s ch ih =>
    have hr := Nat.mod_lt (numeral s) hn
    have hch := ch.toNat_lt
    have hsmall : numeral s % n * 31 + ch.toNat < 2 ^ 64 := by omega
    rw [hashString_concat, numeral_concat, ih, Nat.mod_eq_of_lt hsmall]
    exact ((Nat.mod_modEq _ n).mul_right 31).add_right ch.toNat

/-- The number of a name is as long as the name. -/
theorem numeral_add_le (s : Bytes) : numeral s + 9 ≤ 9 * 31 ^ s.length := by
  induction s using List.reverseRecOn with
  | nil => exact le_rfl
  | append_singleton s ch ih =>
    have hch := ch.toNat_lt
    rw [numeral_concat, List.length_append, List.length_singleton, pow_succ]
    omega

/-! ## Equal names of one bucket -/

section Residues

variable {a b : Bytes} {N : ℕ}

/-- Of two numbers that all small numbers divide the difference of, neither is
larger. -/
theorem le_of_forall_modEq {x y L : ℕ} (hN : 4 ≤ N) (hlt : N < 2 ^ 31) (hL : 5 * L + 35 ≤ 2 * N)
    (hy : y + 9 ≤ 9 * 31 ^ L) (h : ∀ n, 0 < n → n ≤ 2 * N → x ≡ y [MOD n]) : y ≤ x := by
  by_contra hxy
  rw [not_le] at hxy
  have hpow : 31 ^ L ≤ 2 ^ (5 * L) := by
    rw [pow_mul]
    exact Nat.pow_le_pow_left (by omega) L
  have hsmall : (y - x) * N < 4 ^ N := by
    calc (y - x) * N ≤ (2 ^ 4 * 2 ^ (5 * L)) * N := Nat.mul_le_mul_right N (by omega)
      _ < (2 ^ 4 * 2 ^ (5 * L)) * 2 ^ 31 := Nat.mul_lt_mul_of_pos_left hlt (by positivity)
      _ = 2 ^ (5 * L + 35) := by ring
      _ ≤ 2 ^ (2 * N) := Nat.pow_le_pow_right Nat.two_pos hL
      _ = 4 ^ N := pow_mul 2 2 N
  have hzero := eq_zero_of_forall_dvd hN hsmall fun n hpos hle =>
    (Nat.modEq_iff_dvd' hxy.le).1 (h n hpos hle)
  omega

/-- Names that are short compared to `N` are the same number. -/
theorem numeral_eq_of_modEq (hN : 4 ≤ N) (hlt : N < 2 ^ 31) (ha : 5 * a.length + 35 ≤ 2 * N)
    (hb : 5 * b.length + 35 ≤ 2 * N)
    (h : ∀ n, 0 < n → n ≤ 2 * N → numeral a ≡ numeral b [MOD n]) : numeral a = numeral b :=
  le_antisymm
    (le_of_forall_modEq hN hlt ha (numeral_add_le a) fun n hpos hle => (h n hpos hle).symm)
    (le_of_forall_modEq hN hlt hb (numeral_add_le b) h)

/-- **Names of less than `2 ^ 29` bytes** with the same residues are the same
number. -/
theorem sameResidues_iff (ha : a.length < 2 ^ 29) (hb : b.length < 2 ^ 29) :
    SameResidues a b ↔ numeral a = numeral b := by
  constructor
  · intro h
    refine numeral_eq_of_modEq (N := 2 ^ 31 - 1) (by omega) (by omega) (by omega) (by omega) ?_
    intro n hpos hle
    exact h n hpos (by omega)
  · intro h n _ _
    rw [h]

/-- Equal names are of one length. -/
theorem SameName.length_eq {tolower : UInt8 → UInt8} (h : SameName tolower a b) :
    a.length = b.length := by
  have hlen := congrArg List.length h
  rwa [List.length_map, List.length_map] at hlen

/-- Letters that are the same but for case. -/
theorem toNat_of_cTolower_eq {x y : UInt8} (h : cTolower x = cTolower y) :
    x.toNat = y.toNat ∨ x.toNat = y.toNat + 32 ∨ y.toNat = x.toNat + 32 := by
  have hx := x.toNat_lt
  have hy := y.toNat_lt
  have heq := congrArg UInt8.toNat h
  unfold cTolower at heq
  split_ifs at heq with h₁ h₂ h₂ <;>
    simp only [UInt8.le_iff_toNat_le, UInt8.toNat_add, UInt8.reduceToNat] at * <;> omega

/-- **Such names are the same number only if they are the same**, as 31 does
not divide the difference that case makes. -/
theorem eq_of_numeral_eq (h : SameName cTolower a b) (hnum : numeral a = numeral b) : a = b := by
  induction a using List.reverseRecOn generalizing b with
  | nil => exact (List.eq_nil_of_length_eq_zero h.length_eq.symm).symm
  | append_singleton a x ih =>
    rcases List.eq_nil_or_concat b with rfl | ⟨b, y, rfl⟩
    · have hlen := h.length_eq
      rw [List.length_append, List.length_singleton] at hlen
      cases hlen
    · rw [List.concat_eq_append] at h hnum ⊢
      unfold SameName at h
      rw [List.map_append, List.map_append] at h
      obtain ⟨hinit, hlast⟩ := List.append_inj' h rfl
      have hcase := toNat_of_cTolower_eq (List.cons.inj hlast).1
      rw [numeral_concat, numeral_concat] at hnum
      obtain rfl := ih hinit (by omega)
      obtain rfl := UInt8.toNat_inj.1 (by omega : x.toNat = y.toNat)
      rfl

end Residues

/-! ## The hasher -/

section Hasher

variable {tolower : UInt8 → UInt8} {p q : DicodAcl}

/-- The hasher has a bucket for a name. -/
theorem aclHasher_ok {n : ℕ} (hn : n % 2 ^ 32 ≠ 0) (p : DicodAcl) :
    aclHasher p n = .ok (numeral p.name % (n % 2 ^ 32)) := by
  unfold aclHasher
  rw [if_neg fun h => hn h.1, hashString_eq (Nat.pos_of_ne_zero hn) (Nat.mod_lt n (by omega))]

/-- **Equal names have one bucket in every table** exactly if they have the
same residues. -/
theorem aclHasher_eq_iff (h : SameName tolower p.name q.name) :
    (∀ n, aclHasher p n = aclHasher q n) ↔ SameResidues p.name q.name := by
  constructor
  · intro hhash n hpos hlt
    have hmod := Nat.mod_eq_of_lt hlt
    have heq := hhash n
    rw [aclHasher_ok (by omega), aclHasher_ok (by omega), hmod] at heq
    exact Except.ok.inj heq
  · intro hres n
    by_cases hn : n % 2 ^ 32 = 0
    · -- only the empty name has a bucket there
      have hlen := h.length_eq
      unfold aclHasher
      rw [hn]
      by_cases hp : p.name = []
      · rw [hp, List.length_nil] at hlen
        rw [hp, List.eq_nil_of_length_eq_zero hlen.symm]
      · have hq : q.name ≠ [] := by
          intro hq
          rw [hq, List.length_nil] at hlen
          exact hp (List.eq_nil_of_length_eq_zero hlen)
        rw [if_pos ⟨rfl, hp⟩, if_pos ⟨rfl, hq⟩]
    · rw [aclHasher_ok hn, aclHasher_ok hn]
      exact congrArg _ (hres _ (Nat.pos_of_ne_zero hn) (Nat.mod_lt n (by omega)))

end Hasher

end Dico
