import Mathlib.Algebra.Ring.Nat
import Mathlib.Data.List.Basic
import Mathlib.Tactic.Common
/-!
# Blocks of memory

A block is the list of its bytes, of fixed length. `peek` and `poke` are
the two ways a program touches one, and both refuse an access that is
not inside the block: an out-of-bounds copy has no result here, so a
program that always has one never made such a copy.
-/

namespace Dico

/-- A block of bytes, or the bytes of a copy in flight. -/
abbrev Bytes := List UInt8

namespace Memory

/-- The `n` bytes at offset `off`, where the block holds them all. -/
def peek (m : Bytes) (off n : ℕ) : Option Bytes :=
  if off + n ≤ m.length then some ((m.drop off).take n) else none

/-- The block with `src` copied over it at offset `off`, where it fits. -/
def poke (m : Bytes) (off : ℕ) (src : Bytes) : Option Bytes :=
  if off + src.length ≤ m.length then
    some (m.take off ++ src ++ m.drop (off + src.length))
  else none

variable {m m' src w : Bytes} {off n : ℕ}

/-- A read inside the block succeeds. -/
theorem peek_eq_some (h : off + n ≤ m.length) :
    peek m off n = some ((m.drop off).take n) := if_pos h

/-- A read that succeeds was inside the block. -/
theorem le_of_peek (h : peek m off n = some w) : off + n ≤ m.length := by
  by_contra hc
  rw [peek, if_neg hc] at h
  cases h

/-- What a read returns. -/
theorem peek_val (h : peek m off n = some w) : (m.drop off).take n = w := by
  rw [peek_eq_some (le_of_peek h)] at h
  exact Option.some.inj h

/-- What a read returns has the length asked for. -/
theorem length_of_peek (h : peek m off n = some w) : w.length = n := by
  have hle := le_of_peek h
  obtain rfl := peek_val h
  simp only [List.length_take, List.length_drop]
  omega

/-- A write inside the block succeeds. -/
theorem poke_eq_some (h : off + src.length ≤ m.length) :
    poke m off src = some (m.take off ++ src ++ m.drop (off + src.length)) := if_pos h

/-- A write that succeeds was inside the block. -/
theorem le_of_poke (h : poke m off src = some m') : off + src.length ≤ m.length := by
  by_contra hc
  rw [poke, if_neg hc] at h
  cases h

/-- A write keeps the size of the block. -/
theorem length_of_poke (h : poke m off src = some m') : m'.length = m.length := by
  have hle := le_of_poke h
  rw [poke_eq_some hle] at h
  obtain rfl := Option.some.inj h
  simp only [List.length_append, List.length_take, List.length_drop]
  omega

/-- The rest of a longer read. -/
theorem peek_drop {k : ℕ} (h : peek m off n = some w) (hk : k ≤ n) :
    peek m (off + k) (n - k) = some (w.drop k) := by
  have hle := le_of_peek h
  obtain rfl := peek_val h
  rw [peek_eq_some (by omega), List.drop_take, List.drop_drop]

/-- Reading back what was written. -/
theorem peek_poke (h : poke m off src = some m') : peek m' off src.length = some src := by
  have hle := le_of_poke h
  have hlen := length_of_poke h
  rw [poke_eq_some hle] at h
  obtain rfl := Option.some.inj h
  have ht : (m.take off).length = off := by
    rw [List.length_take]
    omega
  rw [peek_eq_some (by omega), List.append_assoc, List.drop_append_of_le_length (by omega),
    List.drop_eq_nil_of_le (by omega), List.nil_append, List.take_left]

/-- **A copy placed right behind a window extends it.** -/
theorem peek_poke_append (hw : peek m off n = some w) (h : poke m (off + n) src = some m') :
    peek m' off (n + src.length) = some (w ++ src) := by
  have hle := le_of_poke h
  have hlen := length_of_poke h
  have hwle := le_of_peek hw
  obtain rfl := peek_val hw
  rw [poke_eq_some hle] at h
  obtain rfl := Option.some.inj h
  have ht : (m.take (off + n)).length = off + n := by
    rw [List.length_take]
    omega
  rw [peek_eq_some (by omega), List.append_assoc, List.drop_append_of_le_length (by omega),
    List.drop_take, Nat.add_sub_cancel_left, ← List.append_assoc, List.take_left']
  simp only [List.length_append, List.length_take, List.length_drop]
  omega

/-- A part of a longer read. -/
theorem peek_part {k l : ℕ} (h : peek m off n = some w) (hkl : k + l ≤ n) :
    peek m (off + k) l = some ((w.drop k).take l) := by
  have hle := le_of_peek h
  obtain rfl := peek_val h
  rw [peek_eq_some (by omega), List.drop_take, List.drop_drop, List.take_take,
    min_eq_left (by omega)]

/-- **A copy leaves what is beside it alone.** -/
theorem peek_poke_of_disjoint {off' : ℕ} (h : poke m off src = some m')
    (hd : off' + n ≤ off ∨ off + src.length ≤ off') : peek m' off' n = peek m off' n := by
  have hle := le_of_poke h
  have hlen := length_of_poke h
  rw [peek, peek, hlen]
  split_ifs with hin
  · rw [poke_eq_some hle] at h
    obtain rfl := Option.some.inj h
    have ht : (m.take off).length = off := by
      rw [List.length_take]
      omega
    rcases hd with hd | hd
    · rw [List.append_assoc, List.drop_append_of_le_length (by omega), List.drop_take,
        List.take_append_of_le_length, List.take_take, min_eq_left (by omega)]
      rw [List.length_take, List.length_drop]
      omega
    · have hpre : (m.take off ++ src).length = off + src.length := by
        rw [List.length_append, ht]
      rw [List.drop_append, List.drop_eq_nil_of_le (by omega), List.nil_append, hpre,
        List.drop_drop, show off + src.length + (off' - (off + src.length)) = off' by omega]
  · rfl

/-- A read behind what is in front. -/
theorem peek_append_right (a b : Bytes) (off n : ℕ) :
    peek (a ++ b) (a.length + off) n = peek b off n := by
  rw [peek, peek, List.length_append, List.drop_append, List.drop_eq_nil_of_le (by omega),
    List.nil_append, Nat.add_sub_cancel_left]
  split_ifs <;> first | rfl | omega

/-! ## Words in a block -/

/-- The `k` bytes of a number, the least first. -/
def toLe : ℕ → ℕ → Bytes
  | 0, _ => []
  | k + 1, v => UInt8.ofNat v :: toLe k (v / 256)

/-- The number that bytes are, the least first. -/
def ofLe : Bytes → ℕ
  | [] => 0
  | b :: w => b.toNat + 256 * ofLe w

/-- There are `k` of them. -/
@[simp] theorem length_toLe (k v : ℕ) : (toLe k v).length = k := by
  induction k generalizing v with
  | zero => rfl
  | succ k ih => rw [toLe, List.length_cons, ih]

/-- They are the number, as far as they can hold it. -/
theorem ofLe_toLe (k v : ℕ) : ofLe (toLe k v) = v % 256 ^ k := by
  induction k generalizing v with
  | zero => rw [toLe, ofLe, pow_zero, Nat.mod_one]
  | succ k ih =>
    have hpow : 256 ^ (k + 1) = 256 * 256 ^ k := pow_succ' 256 k
    rw [toLe, ofLe, ih, UInt8.toNat_ofNat', hpow, Nat.mod_mul]

/-- So many bytes hold no larger number. -/
theorem ofLe_lt (w : Bytes) : ofLe w < 256 ^ w.length := by
  induction w with
  | nil => exact Nat.one_pos
  | cons b w ih =>
    have hb := b.toNat_lt
    rw [ofLe, List.length_cons, pow_succ]
    omega

/-- The `unsigned long` at an offset. -/
def getWord (m : Bytes) (off : ℕ) : Option ℕ := (peek m off 8).map ofLe

/-- `unsigned long` stored at an offset. -/
def setWord (m : Bytes) (off v : ℕ) : Option Bytes := poke m off (toLe 8 v)

/-- It has 64 bits. -/
theorem getWord_lt {v : ℕ} (h : getWord m off = some v) : v < 2 ^ 64 := by
  obtain ⟨w, hw, rfl⟩ := Option.map_eq_some_iff.1 h
  have hlt := ofLe_lt w
  rw [length_of_peek hw] at hlt
  exact hlt

/-- Reading back the word that was stored. -/
theorem getWord_setWord {v : ℕ} (h : setWord m off v = some m') (hv : v < 2 ^ 64) :
    getWord m' off = some v := by
  have hpeek := peek_poke h
  rw [length_toLe] at hpeek
  rw [getWord, hpeek, Option.map_some, ofLe_toLe, Nat.mod_eq_of_lt (by omega)]

/-- A copy leaves the words beside it alone. -/
theorem getWord_poke_of_disjoint {off' : ℕ} (h : poke m off src = some m')
    (hd : off' + 8 ≤ off ∨ off + src.length ≤ off') : getWord m' off' = getWord m off' := by
  rw [getWord, getWord, peek_poke_of_disjoint h hd]

end Memory

end Dico
